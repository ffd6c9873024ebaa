import ObjectGraph.Proofs.Waiting.Ledger

/-!
# `Proofs.Waiting.Accounting` — the account balances after every act

An account has three parts, which different acts touch. Of the *names*, each is in the table once, and
those that are building are those in hand and those whose value is parked. Of the *slots*, what waits for a
parked value is just the placeholders that are left in it, where they are. Of the *owners*, each waits for
as many assignments as are parked for it, one that is being made counted too.

An act that has in hand what it takes (`Ledger.Enabled`) keeps the three (`Accounted.after`), so they hold
at every moment of a trace (`Accounted.trace`).

Contents:
* `NamesAccounted`, `SlotsAccounted`, `OwnersAccounted`, `Accounted`;
* what draining, parking and serving keep of the slots;
* `Accounted.after`, `Accounted.trace`, `Accounted.start`.
-/

namespace ObjectGraph

open Build (gather gather_put gather_remove mem_gather)

namespace Ledger

/-- Each name has one state; a name is building if it is in hand or its value is parked, and no other. -/
structure NamesAccounted (l : Ledger) : Prop where
  once : (Table.keys l.build.names).Nodup
  begun : l.hand + l.build.parkedNames = l.build.buildingOnes

/-- The waiters stand for the placeholders that are left in the parked values, each for its own. -/
structure SlotsAccounted (l : Ledger) : Prop where
  /-- A waiter's place leads to the very placeholder it waits for, in the value that is parked. -/
  located : ∀ f ∈ l.waiting,
    ∃ v n, l.build.parked? f.slot = some (v, n) ∧ v.at? f.place = some (.pending f.pending)
  /-- A parked value counts those that wait for it, and some do. -/
  outstanding : ∀ slot v n, l.build.parked? slot = some (v, n) →
    n = l.waiting.countP (·.slot = slot) ∧ 0 < n
  /-- A placeholder that was parked has been served or waits. -/
  balance : l.enrolled = l.served + l.waiting.map Flight.address
  /-- No placeholder is parked twice. -/
  once : l.enrolled.Nodup
  slots : ∀ a ∈ l.enrolled, l.build.HasSlot a.1

/-- A component waits for the assignments that are parked for it, and for the one that is being made. -/
structure OwnersAccounted (l : Ledger) : Prop where
  pending : ∀ i t, l.build.objects[i]? = some t →
    t.pending = l.build.parkedFor i + if l.landing = some i then 1 else 0
  tracked : ∀ d, some d ∈ l.build.deferred → d.owner < l.build.objects.length
  landing : ∀ i, l.landing = some i → i < l.build.objects.length

/-- The account balances. -/
structure Accounted (l : Ledger) : Prop where
  names : NamesAccounted l
  slots : SlotsAccounted l
  owners : OwnersAccounted l

variable {l l' : Ledger}

/-! ## Names -/

theorem mem_buildingOnes {b : Build} (hn : (Table.keys b.names).Nodup) {name : String}
    (h : name ∈ b.buildingOnes) : ∃ ws, b.stateOf? name = some (.building ws) := by
  obtain ⟨⟨k, st⟩, he, hm⟩ := mem_gather.mp h
  cases st with
  | building ws =>
      obtain rfl : name = k := by simpa [Build.ifBuilding] using hm
      exact ⟨ws, Table.lookup_of_mem hn he⟩
  | built v => exact absurd hm (by simp [Build.ifBuilding])

theorem mem_parkedNames {b : Build} {d : DeferredName} (hd : some d ∈ b.deferredNames) :
    d.name ∈ b.parkedNames := by
  unfold Build.parkedNames
  generalize b.deferredNames = ds at hd
  induction ds with
  | nil => exact absurd hd (by simp)
  | cons e ds ih =>
      rw [List.map_cons, List.sum_cons, Multiset.mem_add]
      rcases List.mem_cons.mp hd with rfl | hd
      · exact .inl (by simp)
      · exact .inr (ih hd)

namespace NamesAccounted

/-- A parked named value belongs to a name that is building. -/
theorem building_of_parked (h : NamesAccounted l) {d : DeferredName}
    (hd : some d ∈ l.build.deferredNames) : ∃ ws, l.build.stateOf? d.name = some (.building ws) :=
  mem_buildingOnes h.once (h.begun ▸ Multiset.mem_add.mpr (.inr (mem_parkedNames hd)))

/-- A name in hand is building. -/
theorem building_of_hand (h : NamesAccounted l) {name : String} (hm : name ∈ l.hand) :
    ∃ ws, l.build.stateOf? name = some (.building ws) :=
  mem_buildingOnes h.once (h.begun ▸ Multiset.mem_add.mpr (.inl hm))

/-- Writing the state of a name keeps the names, if the hand gains or loses with it. -/
theorem put (h : NamesAccounted l) {name : String} {st : NameState}
    (hn : l'.build.names = Table.put name st l.build.names)
    (hd : l'.build.deferredNames = l.build.deferredNames)
    (hh : l'.hand + (l.build.stateOf? name).elim 0 (Build.ifBuilding name)
      = l.hand + Build.ifBuilding name st) : NamesAccounted l' := by
  refine ⟨?_, ?_⟩
  · rw [hn, Table.keys_put]
    split
    · exact h.once
    next hk =>
      exact List.nodup_append.mpr ⟨h.once, by simp, fun a ha b hb hab => hk (by simp_all)⟩
  · have put := gather_put Build.ifBuilding name st l.build.names
    have begun := h.begun
    unfold Build.parkedNames Build.buildingOnes at *
    rw [hn, hd]
    refine add_right_cancel (b := (l.build.stateOf? name).elim 0 (Build.ifBuilding name)) ?_
    rw [add_right_comm, hh, add_right_comm, begun]
    exact put.symm

end NamesAccounted

/-! ## Slots -/

/-- The waiters of a name are what the name gives up when its state is written. -/
theorem waiting_put (l : Ledger) (name : String) (st : NameState) :
    gather NameState.flights (Table.put name st l.build.names) + l.waitersOf name
      = l.build.waiting + st.flights name :=
  gather_put _ _ _ _

theorem mem_leaves {slot : Slot} {v : Value} {f : Flight} :
    f ∈ leaves slot v ↔ f.slot = slot ∧ (f.place, f.pending) ∈ v.placeholders := by
  simp only [leaves, Multiset.mem_coe, List.mem_map, Prod.exists]
  constructor
  · rintro ⟨place, p, hp, rfl⟩
    exact ⟨rfl, hp⟩
  · rintro ⟨rfl, hp⟩
    exact ⟨f.place, f.pending, hp, rfl⟩

theorem countP_cons_self (f : Flight) (fs : Multiset Flight) :
    (f ::ₘ fs).countP (·.slot = f.slot) = fs.countP (·.slot = f.slot) + 1 :=
  Multiset.countP_cons_of_pos fs rfl

theorem nodup_leaves (slot : Slot) (v : Value) : ((leaves slot v).map Flight.address).Nodup := by
  have := (Value.nodup_placeholders v).map (f := fun place => (slot, place)) fun a b h => by simpa using h
  simpa [leaves, Flight.address, List.map_map, Function.comp_def] using this

namespace SlotsAccounted

/-- No two waiters have one address. -/
theorem distinct (h : SlotsAccounted l) : (l.waiting.map Flight.address).Nodup := by
  have once := h.once
  rw [h.balance] at once
  exact (Multiset.nodup_add.mp once).2.1

/-- Waiters may change hands. -/
theorem congr (h : SlotsAccounted l) (hw : l'.waiting = l.waiting)
    (hp : ∀ slot, l'.build.parked? slot = l.build.parked? slot)
    (hs : ∀ slot, l.build.HasSlot slot → l'.build.HasSlot slot)
    (he : l'.enrolled = l.enrolled) (hd : l'.served = l.served) : SlotsAccounted l' := by
  refine ⟨?_, ?_, ?_, ?_, ?_⟩
  · simpa only [hw, hp] using h.located
  · simpa only [hw, hp] using h.outstanding
  · rw [he, hd, hw, h.balance]
  · rw [he]
    exact h.once
  · exact fun a ha => hs a.1 (h.slots a (he ▸ ha))

/-- A value is parked in a new slot, and all its placeholders are about to wait. -/
theorem park (h : SlotsAccounted l) {slot : Slot} {v : Value} (hnew : ¬ l.build.HasSlot slot)
    (hv : v.placeholders ≠ []) (hw : l'.waiting = leaves slot v + l.waiting)
    (hp : ∀ s, l'.build.parked? s
      = if s = slot then some (v, v.placeholders.length) else l.build.parked? s)
    (hs : ∀ s, l.build.HasSlot s → l'.build.HasSlot s) (hslot : l'.build.HasSlot slot)
    (he : l'.enrolled = (leaves slot v).map Flight.address + l.enrolled)
    (hd : l'.served = l.served) : SlotsAccounted l' := by
  have other : ∀ f ∈ l.waiting, f.slot ≠ slot := by
    intro f hf hfs
    obtain ⟨w, n, hw, -⟩ := h.located f hf
    exact hnew (hfs ▸ l.build.parked?_of_hasSlot hw)
  refine ⟨?_, ?_, ?_, ?_, ?_⟩
  · intro f hf
    rw [hw] at hf
    rcases Multiset.mem_add.mp hf with hf | hf
    · obtain ⟨rfl, hm⟩ := mem_leaves.mp hf
      exact ⟨v, v.placeholders.length, by simp [hp], Value.at?_of_mem_placeholders hm⟩
    · rw [hp, if_neg (other f hf)]
      exact h.located f hf
  · intro s w n hsw
    rw [hp] at hsw
    rw [hw, Multiset.countP_add]
    by_cases hss : s = slot
    · subst hss
      obtain ⟨rfl, rfl⟩ : v = w ∧ v.placeholders.length = n := by simpa using hsw
      have all : (leaves s v).countP (·.slot = s) = v.placeholders.length := by
        rw [Multiset.countP_eq_card.mpr fun f hf => (mem_leaves.mp hf).1]
        simp [leaves]
      have none : l.waiting.countP (·.slot = s) = 0 := Multiset.countP_eq_zero.mpr other
      exact ⟨by rw [all, none, add_zero], List.length_pos_iff.mpr hv⟩
    · rw [if_neg hss] at hsw
      have none : (leaves slot v).countP (·.slot = s) = 0 :=
        Multiset.countP_eq_zero.mpr fun f hf hfs => hss (hfs.symm.trans (mem_leaves.mp hf).1)
      rw [none, zero_add]
      exact h.outstanding s w n hsw
  · rw [he, hd, hw, h.balance, Multiset.map_add]
    abel
  · rw [he]
    refine Multiset.nodup_add.mpr ⟨nodup_leaves slot v, h.once, ?_⟩
    refine Multiset.disjoint_left.mpr fun {a} ha hl => ?_
    obtain ⟨f, hf, rfl⟩ := Multiset.mem_map.mp ha
    exact hnew ((mem_leaves.mp hf).1 ▸ h.slots _ hl)
  · intro a ha
    rw [he] at ha
    rcases Multiset.mem_add.mp ha with ha | ha
    · obtain ⟨f, hf, rfl⟩ := Multiset.mem_map.mp ha
      obtain ⟨rfl, -⟩ := mem_leaves.mp hf
      exact hslot
    · exact hs _ (h.slots a ha)

/-- Serving a waiter in hand takes just that one away. -/
theorem waiting_serve (h : SlotsAccounted l) {f : Flight} (hf : f ∈ l.flights) :
    l.waiting = f ::ₘ (l.build.waiting + l.flights.filter fun g => g.address ≠ f.address) := by
  obtain ⟨rest, hrest⟩ := Multiset.exists_cons_of_mem hf
  have distinct := h.distinct
  unfold waiting at distinct ⊢
  rw [hrest, Multiset.add_cons, Multiset.map_cons, Multiset.nodup_cons] at distinct
  have keep : rest.filter (fun g => g.address ≠ f.address) = rest := by
    refine Multiset.filter_eq_self.mpr fun g hg hgf => distinct.1 ?_
    exact hgf ▸ Multiset.mem_map_of_mem _ (Multiset.mem_add.mpr (.inr hg))
  rw [hrest, Multiset.filter_cons_of_neg _ (by simp), keep, Multiset.add_cons]

/-- What stays in hand when a waiter is served. -/
theorem flights_serve (h : SlotsAccounted l) {f : Flight} {fs : Multiset Flight}
    (hf : l.flights = f ::ₘ fs) : l.flights.filter (fun g => g.address ≠ f.address) = fs := by
  have served := h.waiting_serve (f := f) (by simp [hf])
  unfold waiting at served
  rw [hf, Multiset.add_cons, Multiset.cons_inj_right, ← hf] at served
  exact (add_left_cancel served).symm

/-- A waiter in hand is served: its place is filled. -/
theorem serve (h : SlotsAccounted l) {f : Flight} (hf : f ∈ l.flights) (new : Value)
    (hw : l'.waiting = l.build.waiting + l.flights.filter fun g => g.address ≠ f.address)
    (hp : ∀ s, l'.build.parked? s
      = if s = f.slot then (l.build.parked? s).bind (Build.filled f.place new)
        else l.build.parked? s)
    (hs : ∀ s, l.build.HasSlot s → l'.build.HasSlot s) (he : l'.enrolled = l.enrolled)
    (hd : l'.served = f.address ::ₘ l.served) : SlotsAccounted l' := by
  have waiting : l.waiting = f ::ₘ l'.waiting := hw ▸ h.waiting_serve hf
  have distinct := h.distinct
  rw [waiting, Multiset.map_cons, Multiset.nodup_cons] at distinct
  obtain ⟨v, n, hv, hat⟩ := h.located f (by simp [waiting])
  refine ⟨?_, ?_, ?_, ?_, ?_⟩
  · intro g hg
    obtain ⟨w, m, hm, hgat⟩ := h.located g (by simp [waiting, hg])
    rw [hp]
    by_cases hgf : g.slot = f.slot
    · rw [if_pos hgf]
      obtain ⟨rfl, rfl⟩ : w = v ∧ m = n := by simpa [← hgf, hm] using hv
      -- with this waiter and that one the slot has two, so something stays parked
      have two : 1 < m := by
        have count := (h.outstanding _ _ _ hv).1
        rw [waiting, countP_cons_self] at count
        have : 0 < l'.waiting.countP (·.slot = f.slot) := Multiset.countP_pos.mpr ⟨g, hg, hgf⟩
        omega
      have hne : f.place ≠ g.place := fun hfg =>
        distinct.1 (Multiset.mem_map.mpr ⟨g, hg, by simp [Flight.address, hgf, hfg]⟩)
      refine ⟨Value.setAt new f.place w, m - 1, ?_, Value.at?_setAt_of_ne new hat hgat hne⟩
      simp [hm, Build.filled, Nat.not_le.mpr two]
    · rw [if_neg hgf]
      exact ⟨w, m, hm, hgat⟩
  · intro s w m hm
    rw [hp] at hm
    by_cases hsf : s = f.slot
    · subst hsf
      obtain ⟨count, pos⟩ := h.outstanding _ _ _ hv
      rw [waiting, countP_cons_self] at count
      simp only [if_true, hv, Option.bind_some, Build.filled] at hm
      by_cases hn : n ≤ 1
      · exact absurd hm (by simp [hn])
      · obtain ⟨-, rfl⟩ : Value.setAt new f.place v = w ∧ n - 1 = m := by simpa [hn] using hm
        omega
    · rw [if_neg hsf] at hm
      have count := h.outstanding s w m hm
      rwa [waiting, Multiset.countP_cons_of_neg _ (fun hfs => hsf hfs.symm)] at count
  · rw [he, hd, h.balance, waiting, Multiset.map_cons, Multiset.cons_add, Multiset.add_cons]
  · rw [he]
    exact h.once
  · exact fun a ha => hs _ (h.slots a (he ▸ ha))

end SlotsAccounted

/-! ## Owners -/

namespace OwnersAccounted

/-- What is told to a tracked component, or noted of it, changes nothing it waits for. -/
theorem modify (h : OwnersAccounted l) {i : Nat} {f : Tracked → Tracked}
    (hf : ∀ t, (f t).pending = t.pending) (ho : l'.build.objects = l.build.objects.modify i f)
    (hd : l'.build.deferred = l.build.deferred) (hl : l'.landing = l.landing) :
    OwnersAccounted l' := by
  refine ⟨?_, ?_, ?_⟩
  · intro j t ht
    rw [ho, List.getElem?_modify] at ht
    simp only [Build.parkedFor, hd, hl]
    by_cases hij : i = j
    · subst hij
      obtain ⟨u, hu, rfl⟩ : ∃ u, l.build.objects[i]? = some u ∧ f u = t := by simpa using ht
      rw [hf]
      exact h.pending i u hu
    · exact h.pending j t (by simpa [hij] using ht)
  · simpa [ho, hd] using h.tracked
  · simpa [ho, hl] using h.landing

/-- What leaves the components and the parked assignments as they are. -/
theorem congr (h : OwnersAccounted l) (ho : l'.build.objects = l.build.objects)
    (hd : l'.build.deferred = l.build.deferred) (hl : l'.landing = l.landing) :
    OwnersAccounted l' := by
  refine ⟨?_, ?_, ?_⟩
  · simpa [Build.parkedFor, ho, hd, hl] using h.pending
  · simpa [ho, hd] using h.tracked
  · simpa [ho, hl] using h.landing

theorem track (h : OwnersAccounted l) (hl : l.landing = none) (o : ObjectId) :
    OwnersAccounted (l.after (.track o)) := by
  refine ⟨?_, ?_, ?_⟩
  · intro j t ht
    change (l.build.objects ++ [_])[j]? = some t at ht
    change t.pending = l.build.parkedFor j + if l.landing = some j then 1 else 0
    rw [List.getElem?_append] at ht
    by_cases hj : j < l.build.objects.length
    · exact h.pending j t (by simpa [hj] using ht)
    -- nothing is parked for a component that was not tracked
    · have none : l.build.parkedFor j = 0 := by
        refine List.countP_eq_zero.mpr fun d hd => ?_
        cases d with
        | none => simp
        | some d =>
            have := h.tracked d hd
            have : d.owner ≠ j := by omega
            simpa using this
      obtain rfl : ⟨o, 0, false, false⟩ = t := by
        have := List.mem_of_getElem? (by simpa [hj] using ht : [_][j - l.build.objects.length]? = some t)
        exact (List.mem_singleton.mp this).symm
      simp [none, hl]
  · intro d hd
    have := h.tracked d hd
    simp [after, Build.apply]
    omega
  · exact fun i hi => absurd hi (by simp [after, hl])

theorem park (h : OwnersAccounted l) {d : Deferred} (hl : l.landing = none)
    (hd : d.owner < l.build.objects.length) : OwnersAccounted (l.after (.park d)) := by
  refine ⟨?_, ?_, ?_⟩
  · intro j t ht
    change (l.build.objects.modify d.owner _)[j]? = some t at ht
    change t.pending = (l.build.deferred ++ [some d]).countP _ + if l.landing = some j then 1 else 0
    rw [List.getElem?_modify] at ht
    rw [List.countP_append]
    by_cases hj : d.owner = j
    · subst hj
      obtain ⟨u, hu, rfl⟩ : ∃ u, l.build.objects[d.owner]? = some u ∧ _ = t := by simpa using ht
      have := h.pending _ u hu
      simp only [hl, Build.parkedFor] at this ⊢
      simp [this]
    · have := h.pending j t (by simpa [hj] using ht)
      simp only [hl, Build.parkedFor] at this ⊢
      simp [this, hj]
  · intro e he
    change some e ∈ l.build.deferred ++ [some d] at he
    simp only [List.mem_append, List.mem_singleton, Option.some.injEq] at he
    rw [build_after]
    rcases he with he | rfl
    · simpa [Build.apply] using h.tracked e he
    · simpa [Build.apply] using hd
  · exact fun i hi => absurd hi (by simp [after, hl])

theorem fill (h : OwnersAccounted l) (hl : l.landing = none) {i : Nat} {d : Deferred}
    (hd : l.build.deferred[i]? = some (some d)) (place : List Place) (v : Value) :
    OwnersAccounted (l.after (.fill i place v)) := by
  have landing : (l.after (.fill i place v)).landing
      = if d.outstanding ≤ 1 then some d.owner else none := by
    by_cases ho : d.outstanding ≤ 1 <;> simp [after, hd, ho, Option.filter]
  have inside := h.tracked d (List.mem_of_getElem? hd)
  refine ⟨?_, ?_, ?_⟩
  · intro j t ht
    have pending := h.pending j t ht
    have count := l.build.parkedFor_fill hd place v j
    rw [hl] at pending
    rw [landing, build_after]
    by_cases ho : d.outstanding ≤ 1 <;> by_cases hj : d.owner = j <;> simp_all
  · intro e he
    change some e ∈ l.build.deferred.modify i _ at he
    obtain ⟨j, hj⟩ := List.mem_iff_getElem?.mp he
    rw [List.getElem?_modify] at hj
    by_cases hij : i = j
    · subst hij
      obtain ⟨rfl, -⟩ : d.filled place v = e ∧ _ := by simpa [hd, Option.filter_eq_some_iff] using hj
      exact inside
    · exact h.tracked e (List.mem_of_getElem? (by simpa [hij] using hj))
  · intro j hj
    rw [landing] at hj
    by_cases ho : d.outstanding ≤ 1
    · obtain rfl : d.owner = j := by simpa [ho] using hj
      exact inside
    · exact absurd hj (by simp [ho])

theorem release (h : OwnersAccounted l) {i : Nat} (hl : l.landing = some i) :
    OwnersAccounted (l.after (.release i)) := by
  refine ⟨?_, ?_, ?_⟩
  · intro j t ht
    change (l.build.objects.modify i _)[j]? = some t at ht
    change t.pending = l.build.parkedFor j + if none = some j then 1 else 0
    rw [List.getElem?_modify] at ht
    by_cases hij : i = j
    · subst hij
      obtain ⟨u, hu, rfl⟩ : ∃ u, l.build.objects[i]? = some u ∧ _ = t := by simpa using ht
      have := h.pending i u hu
      simp [hl] at this
      simp [this]
    · have := h.pending j t (by simpa [hij] using ht)
      simpa [hl, hij] using this
  · simpa [after, Build.apply] using h.tracked
  · exact fun j hj => absurd hj (by simp [after])

end OwnersAccounted

/-! ## Every act -/

namespace Accounted

variable {name : String}

theorem begin (h : Accounted l) (hs : l.build.stateOf? name = none) :
    Accounted (l.after (.begin name)) := by
  refine ⟨h.names.put rfl rfl ?_, h.slots.congr ?_ (fun _ => rfl) (fun _ => id) rfl rfl,
    h.owners.congr rfl rfl rfl⟩
  · simp only [hs, after, Build.ifBuilding, Option.elim_none, add_zero]
    rw [add_comm, Multiset.singleton_add]
  · have put := waiting_put l name (.building [])
    simp only [waitersOf, hs, Option.elim_none, add_zero, NameState.flights, NameState.waiters,
      List.map_nil, Multiset.coe_nil] at put
    exact congrArg (· + l.flights) put

/-- A name that is through hands its waiters over, whether it is built or given up. -/
theorem finish (h : Accounted l) (hm : name ∈ l.hand) (v : Value) :
    Accounted (l.after (.finish name v)) := by
  obtain ⟨ws, hws⟩ := h.names.building_of_hand hm
  refine ⟨h.names.put rfl rfl ?_, h.slots.congr ?_ (fun _ => rfl) (fun _ => id) rfl rfl,
    h.owners.congr rfl rfl rfl⟩
  · simp only [hws, Option.elim_some, after, Build.ifBuilding, add_zero]
    rw [add_comm, Multiset.singleton_add, Multiset.cons_erase hm]
  · have put := waiting_put l name (.built v)
    have none : NameState.flights name (.built v) = 0 := rfl
    rw [none, add_zero] at put
    exact (add_assoc _ _ _).symm.trans (congrArg (· + l.flights) put)

theorem abandon (h : Accounted l) (hm : name ∈ l.hand) : Accounted (l.after (.abandon name)) := by
  obtain ⟨ws, hws⟩ := h.names.building_of_hand hm
  have gone := fun {β : Type} (g : String → NameState → Multiset β) =>
    gather_remove g name h.names.once
  refine ⟨⟨?_, ?_⟩, h.slots.congr ?_ (fun _ => rfl) (fun _ => id) rfl rfl,
    h.owners.congr rfl rfl rfl⟩
  · exact h.names.once.sublist (List.filter_sublist.map Prod.fst)
  · have begun := h.names.begun
    unfold Build.stateOf? at hws
    have gone := gone Build.ifBuilding
    rw [hws] at gone
    refine add_right_cancel (b := {name}) ?_
    change l.hand.erase name + l.build.parkedNames + {name} = _
    rw [add_right_comm, add_comm (l.hand.erase name), Multiset.singleton_add, Multiset.cons_erase hm, begun]
    exact gone.symm
  · exact (add_assoc _ _ _).symm.trans (congrArg (· + l.flights) (gone NameState.flights))

/-- A waiter in hand takes its place on a name. -/
theorem await (h : Accounted l) {w : Waiter} {ws : List Waiter} (hf : w.flight name ∈ l.flights)
    (hs : l.build.stateOf? name = some (.building ws)) : Accounted (l.after (.await name w)) := by
  refine ⟨h.names.put rfl rfl ?_, h.slots.congr ?_ (fun _ => rfl) (fun _ => id) rfl rfl,
    h.owners.congr rfl rfl rfl⟩
  · simp [hs, after, Build.ifBuilding]
  · have put := waiting_put l name (.building (ws ++ [w]))
    have more : NameState.flights name (.building (ws ++ [w]))
        = l.waitersOf name + {w.flight name} := by
      simp only [waitersOf, hs, NameState.flights, NameState.waiters, List.map_append,
        Option.elim_some]
      rfl
    rw [more, ← add_assoc, add_right_comm] at put
    have put := add_right_cancel put
    have waiters : NameState.waiters (l.build.stateOf? name) = ws := by rw [hs]; rfl
    change gather NameState.flights (Table.put name (.building (_ ++ [w])) _) + l.flights.erase _ = _
    rw [waiters, put, add_assoc, Multiset.singleton_add, Multiset.cons_erase hf]
    rfl

theorem park (h : Accounted l) {d : Deferred} (hl : l.landing = none)
    (ho : d.owner < l.build.objects.length) (hv : d.value.placeholders ≠ [])
    (hn : d.outstanding = d.value.placeholders.length) : Accounted (l.after (.park d)) := by
  refine ⟨⟨h.names.once, h.names.begun⟩, ?_, h.owners.park hl ho⟩
  have new : ¬ l.build.HasSlot (.property l.build.deferred.length) := by simp [Build.HasSlot]
  refine h.slots.park new hv ?_ ?_ ?_ ?_ rfl rfl
  · exact add_left_comm _ _ _
  · intro s
    rw [← hn]
    exact l.build.parked?_park d s
  · intro s hs
    cases s <;> simp [Build.HasSlot, Build.apply] at hs ⊢ <;> omega
  · simp [Build.HasSlot, Build.apply]

theorem parkName (h : Accounted l) {d : DeferredName} (hm : d.name ∈ l.hand)
    (hv : d.value.placeholders ≠ []) (hn : d.outstanding = d.value.placeholders.length) :
    Accounted (l.after (.parkName d)) := by
  refine ⟨⟨h.names.once, ?_⟩, ?_, h.owners.congr rfl rfl rfl⟩
  · have parked : (l.build.apply (.parkName d)).parkedNames = l.build.parkedNames + {d.name} := by
      simp [Build.parkedNames, Build.apply]
    have begun := h.names.begun
    rw [← Multiset.cons_erase hm, Multiset.cons_add, ← Multiset.singleton_add] at begun
    rw [build_after, parked, ← add_assoc, add_comm]
    exact begun
  · have new : ¬ l.build.HasSlot (.name l.build.deferredNames.length) := by simp [Build.HasSlot]
    refine h.slots.park new hv ?_ ?_ ?_ ?_ rfl rfl
    · exact add_left_comm _ _ _
    · intro s
      rw [← hn]
      exact l.build.parked?_parkName d s
    · intro s hs
      cases s <;> simp [Build.HasSlot, Build.apply] at hs ⊢ <;> omega
    · simp [Build.HasSlot, Build.apply]

/-- A waiter in hand waits for an assignment that is parked. -/
theorem parked_of_flight (h : Accounted l) {i : Nat} {place : List Place} {p : Pending}
    (hf : ⟨.property i, place, p⟩ ∈ l.flights) :
    ∃ d, l.build.deferred[i]? = some (some d) ∧ 0 < d.outstanding := by
  obtain ⟨v, n, hv, -⟩ := h.slots.located _ (Multiset.mem_add.mpr (.inr hf))
  obtain ⟨d, hd, he⟩ := Option.map_eq_some_iff.mp hv
  have pos := (h.slots.outstanding _ v n hv).2
  cases he
  exact ⟨d, Option.join_eq_some_iff.mp hd, pos⟩

/-- A waiter in hand waits for a named value that is parked. -/
theorem parkedName_of_flight (h : Accounted l) {i : Nat} {place : List Place} {p : Pending}
    (hf : ⟨.name i, place, p⟩ ∈ l.flights) :
    ∃ d, l.build.deferredNames[i]? = some (some d) ∧ 0 < d.outstanding := by
  obtain ⟨v, n, hv, -⟩ := h.slots.located _ (Multiset.mem_add.mpr (.inr hf))
  obtain ⟨d, hd, he⟩ := Option.map_eq_some_iff.mp hv
  have pos := (h.slots.outstanding _ v n hv).2
  cases he
  exact ⟨d, Option.join_eq_some_iff.mp hd, pos⟩

theorem fill (h : Accounted l) (hl : l.landing = none) {i : Nat} {place : List Place} {p : Pending}
    (hf : ⟨.property i, place, p⟩ ∈ l.flights) (v : Value) :
    Accounted (l.after (.fill i place v)) := by
  obtain ⟨d, hd, -⟩ := h.parked_of_flight hf
  refine ⟨⟨h.names.once, h.names.begun⟩, ?_, h.owners.fill hl hd place v⟩
  refine h.slots.serve hf v rfl (fun s => l.build.parked?_fill i place v s) (fun s hs => ?_) rfl rfl
  cases s <;> simpa [Build.HasSlot, Build.apply] using hs

theorem fillName (h : Accounted l) {i : Nat} {place : List Place} {p : Pending}
    (hf : ⟨.name i, place, p⟩ ∈ l.flights) (v : Value) :
    Accounted (l.after (.fillName i place v)) := by
  obtain ⟨d, hd, -⟩ := h.parkedName_of_flight hf
  refine ⟨⟨h.names.once, ?_⟩, ?_, h.owners.congr rfl rfl ?_⟩
  · have names := l.build.parkedNames_fillName hd place v
    have begun := h.names.begun
    by_cases ho : d.outstanding ≤ 1
    -- with its last placeholder the value goes back into the hand
    · rw [if_pos ho, add_zero] at names
      simp only [after, hd, Option.join_some, Option.filter, ho, decide_true, if_true, Option.elim_some]
      rw [add_assoc, add_comm, add_assoc]
      exact (congrArg (l.hand + ·) names).trans begun
    · rw [if_neg ho] at names
      simp only [after, hd, Option.join_some, Option.filter, ho, decide_false, Bool.false_eq_true,
        if_false, Option.elim_none, zero_add]
      exact (congrArg (l.hand + ·) (add_right_cancel names)).trans begun
  · refine h.slots.serve hf v rfl (fun s => l.build.parked?_fillName i place v s) (fun s hs => ?_) rfl rfl
    cases s <;> simpa [Build.HasSlot, Build.apply] using hs
  · rfl

/-- An act that is enabled keeps the account balanced. -/
theorem after (h : Accounted l) {a : Act} (ha : l.Enabled a) : Accounted (l.after a) := by
  have same : ∀ {l' : Ledger}, l'.build.names = l.build.names → l'.build.deferred = l.build.deferred →
      l'.build.deferredNames = l.build.deferredNames → l'.hand = l.hand → l'.flights = l.flights →
      l'.enrolled = l.enrolled → l'.served = l.served → OwnersAccounted l' → Accounted l' := by
    intro l' hn hd hdn hh hf he hs ho
    refine ⟨⟨hn ▸ h.names.once, ?_⟩, h.slots.congr ?_ (fun s => ?_) (fun s hs => ?_) he hs, ho⟩
    · simpa [Build.parkedNames, Build.buildingOnes, hn, hdn, hh] using h.names.begun
    · simp [waiting, Build.waiting, hn, hf]
    · cases s <;> simp [Build.parked?, hd, hdn]
    · cases s <;> simpa [Build.HasSlot, hd, hdn] using hs
  cases a with
  | start root => exact ha.elim
  | begin name => exact h.begin ha.2
  | finish name v => exact h.finish ha.2 v
  | abandon name => exact h.abandon ha.2
  | await name w =>
      obtain ⟨-, hf, ws, hs⟩ := ha
      exact h.await hf hs
  | park d => exact h.park ha.1 ha.2.1 ha.2.2.1 ha.2.2.2
  | parkName d => exact h.parkName ha.2.1 ha.2.2.1 ha.2.2.2
  | fill i place v =>
      obtain ⟨hl, p, hf⟩ := ha
      exact h.fill hl hf v
  | fillName i place v =>
      obtain ⟨-, p, hf⟩ := ha
      exact h.fillName hf v
  | release i => exact same rfl rfl rfl rfl rfl rfl rfl (h.owners.release ha)
  | track o => exact same rfl rfl rfl rfl rfl rfl rfl (h.owners.track ha o)
  | configured i =>
      exact same rfl rfl rfl rfl rfl rfl rfl
        (h.owners.modify (i := i) (f := fun t => { t with configured := true }) (fun _ => rfl) rfl rfl rfl)
  | notify i =>
      exact same rfl rfl rfl rfl rfl rfl rfl
        (h.owners.modify (i := i) (f := fun t => { t with notified := true }) (fun _ => rfl) rfl rfl rfl)
  | enter i names | reach i name | visit i name | write o name | delegate factory =>
      exact same rfl rfl rfl rfl rfl rfl rfl (h.owners.congr rfl rfl rfl)

/-- The account balances at the end of a trace if it did at the start. -/
theorem trace (h : Accounted l) {acts : List Act} (ht : Trace l acts l') : Accounted l' := by
  induction ht with
  | refl => exact h
  | act _ ha ih => exact ih.after ha

/-- A pass starts with nothing on its account. -/
theorem start (b : Build) (root : Configuration) : Accounted (Ledger.start b root) := by
  refine ⟨⟨?_, ?_⟩, ⟨?_, ?_, ?_, ?_, ?_⟩, ⟨?_, ?_, ?_⟩⟩ <;>
    simp [Ledger.start, Build.apply, Build.start, waiting, Build.waiting, gather, Build.parkedNames,
      Build.buildingOnes]
  intro slot v n h
  cases slot <;> simp [Build.parked?] at h

end Accounted

end Ledger

end ObjectGraph
