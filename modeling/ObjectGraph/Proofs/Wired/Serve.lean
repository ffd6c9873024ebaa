import ObjectGraph.Proofs.Wired.State

/-!
# `Proofs.Wired.Serve` — serving waiters in a world

What a placeholder waits for is delivered into the parked value that holds it, and what is complete then is
assigned or built, which may deliver further. All of it leads from a session that stands in a world to one
that stands in a later world. The account of the pass says where the placeholder is; the world says what
is delivered there, and that it is never null.

A chain of deliveries builds a name with each step, so it is no longer than there are names that are not
built (`unfinished`).

Contents:
* `Session.Bears`, what the account of a pass says of a session;
* `unfinished`, `Delivers`;
* `assign_after`, `notifyIfReady_idle`, `release_idle`, `markConfigured_idle`, `track_wires`;
* `fillProperty_wires`, `deliverAll_wires`, `finishName_wires`, `deliver_wires`, `machine_delivers`;
* `waitOnAll_wires`, `settleName_wires`, `injectAt_wires`.
-/

namespace ObjectGraph

open Json (classOf? entryOf?)
open Ledger (Accounted)
open Run (After Quiet)

/-! ## What the account says -/

/-- The account of a session balances, with a burden in hand. -/
def Session.Bears (s : Session) (b : Burden) : Prop :=
  ∃ l fs ns, l.build = s.build ∧ Accounted l ∧ l.Bears b fs ns

section

variable {s t : Session} {pre post : Burden}

theorem Settles.bears (h : Settles pre post s t) (hs : s.Bears pre) : t.Bears post := by
  obtain ⟨l, fs, ns, hb, hl, bears⟩ := hs
  obtain ⟨l', conducts, bears'⟩ := h.account l hb hl fs ns bears
  exact ⟨l', fs, ns, conducts.build, conducts.accounted hl, bears'⟩

/-- What a run leads to, and what it settles. -/
theorem Run.After.settles {α : Type} {x : Run α} {done : α → Session → Prop} {cut : Session → Prop}
    (h : After x s done cut) (hx : accounting.Carries pre post x) :
    After x s (fun a t => Settles pre post s t ∧ done a t) cut :=
  ((hx s).and h).mono (fun _ _ h => h) fun _ h => h.2

/-- What a run leads to, and the account after it. -/
theorem Run.After.bears {α : Type} {x : Run α} {done : α → Session → Prop} {cut : Session → Prop}
    (h : After x s done cut) (hx : accounting.Carries pre post x) (hs : s.Bears pre) :
    After x s (fun a t => t.Bears post ∧ done a t) cut :=
  (h.settles hx).mono (fun _ _ h => ⟨h.1.bears hs, h.2⟩) fun _ => id

namespace Session.Bears

theorem quiet {b : Burden} (hs : s.Bears b) (h : Quiet s t) : t.Bears b := by
  obtain ⟨l, fs, ns, hb, rest⟩ := hs
  exact ⟨l, fs, ns, hb.trans h.build.symm, rest⟩

/-- What is in hand besides may be left out of account. -/
theorem less {fs gs : Multiset Flight} {ns ms : Multiset String} {landing : Option Nat}
    (hs : s.Bears ⟨fs + gs, ns + ms, landing⟩) : s.Bears ⟨fs, ns, landing⟩ := by
  obtain ⟨l, fs', ns', hb, hl, hf, hn, hland⟩ := hs
  exact ⟨l, gs + fs', ms + ns', hb, hl, hf.trans (add_assoc _ _ _), hn.trans (add_assoc _ _ _), hland⟩

theorem nothing {fs : Multiset Flight} {ns : Multiset String} (hs : s.Bears ⟨fs, ns, none⟩) :
    s.Bears .nothing := by
  rw [← zero_add fs, ← zero_add ns] at hs
  exact hs.less

/-- Of some flights in hand a part may be left out. -/
theorem left {fs gs : Multiset Flight} (hs : s.Bears (.ofFlights (fs + gs))) : s.Bears (.ofFlights fs) :=
  @less s fs gs 0 0 none hs

/-- A placeholder in hand is in a parked value. -/
theorem located {f : Flight} (hs : s.Bears (.ofFlights {f})) :
    ∃ v n, s.build.parked? f.slot = some (v, n) ∧ v.at? f.place = some (.pending f.pending) := by
  obtain ⟨l, fs, ns, hb, hl, hf, -⟩ := hs
  rw [← hb]
  refine hl.slots.located f (Multiset.mem_add.mpr (.inr ?_))
  rw [hf]
  exact Multiset.mem_add.mpr (.inl (Multiset.mem_singleton_self f))

/-- A name in hand is building. -/
theorem building {n : String} (hs : s.Bears (.ofName n)) :
    ∃ ws, s.build.stateOf? n = some (.building ws) := by
  obtain ⟨l, fs, ns, hb, hl, -, hn, -⟩ := hs
  rw [← hb]
  refine hl.names.building_of_hand ?_
  rw [hn]
  exact Multiset.mem_add.mpr (.inl (Multiset.mem_singleton_self n))

end Session.Bears

end

namespace PlainRoot

variable {k : Container} {R : PlainRoot k} {m : Machine} {hand : Option ObjectId} {site : Option Home}
variable {w w' : World} {s t : Session}

/-- A placeholder in hand for a parked assignment. -/
theorem parked_property {i : Nat} {place : List Place} {p : Pending}
    (hb : s.Bears (.ofFlights {⟨.property i, place, p⟩})) :
    ∃ d, s.build.deferred[i]? = some (some d) ∧ d.value.at? place = some (.pending p) := by
  obtain ⟨v, n, hv, hat⟩ := hb.located
  obtain ⟨d, hd, he⟩ := Option.map_eq_some_iff.mp hv
  cases he
  exact ⟨d, Option.join_eq_some_iff.mp hd, hat⟩

/-- A placeholder in hand for a parked named value. -/
theorem parked_name {i : Nat} {place : List Place} {p : Pending}
    (hb : s.Bears (.ofFlights {⟨.name i, place, p⟩})) :
    ∃ d, s.build.deferredNames[i]? = some (some d) ∧ d.value.at? place = some (.pending p) := by
  obtain ⟨v, n, hv, hat⟩ := hb.located
  obtain ⟨d, hd, he⟩ := Option.map_eq_some_iff.mp hv
  cases he
  exact ⟨d, Option.join_eq_some_iff.mp hd, hat⟩

/-- A placeholder in hand stands for a name that has begun, and for all of its value. -/
theorem Standing.pending (h : R.Standing w s) {f : Flight} (hb : s.Bears (.ofFlights {f})) :
    f.pending.path = none ∧ w.begun f.pending.name := by
  obtain ⟨slot, place, p⟩ := f
  cases slot with
  | property i =>
      obtain ⟨d, hd, hat⟩ := parked_property hb
      obtain ⟨-, o, key, q, ms, j, -, -, -, -, hr⟩ := h.parked.assignment i d hd
      obtain ⟨path, begun, -⟩ := hr.of_at? h.named.sane.complete rfl hat
      exact ⟨path, begun⟩
  | name i =>
      obtain ⟨d, hd, hat⟩ := parked_name hb
      obtain ⟨-, -, j, -, hr⟩ := h.parked.named i d hd
      obtain ⟨path, begun, -⟩ := hr.of_at? h.named.sane.complete rfl hat
      exact ⟨path, begun⟩

/-! ## How long deliveries go on -/

/-- How many names are not built. -/
def unfinished (R : PlainRoot k) (w : World) : Nat := R.members.countP fun e => (w.built e.1).isNone

theorem unfinished_le_length (w : World) : R.unfinished w ≤ R.members.length := List.countP_le_length

theorem unfinished_anti (h : w ≤ w') : R.unfinished w' ≤ R.unfinished w := by
  refine List.countP_mono_left fun e _ he => ?_
  cases hb : w.built e.1 with
  | none => rfl
  | some v =>
      rw [h.built e.1 v hb] at he
      exact absurd he (by simp)

theorem countP_lt {α : Type} {p q : α → Bool} {l : List α} {x : α} (hx : x ∈ l) (hp : p x = false)
    (hq : q x = true) (h : ∀ y, p y = true → q y = true) : l.countP p < l.countP q := by
  induction l with
  | nil => exact absurd hx (by simp)
  | cons y l ih =>
      have rest := List.countP_mono_left (l := l) fun z _ => h z
      rcases List.mem_cons.mp hx with rfl | hx
      · rw [List.countP_cons_of_neg (by simp [hp]), List.countP_cons_of_pos hq]
        exact Nat.lt_succ_of_le rest
      · have less := ih hx
        by_cases hy : p y = true
        · rw [List.countP_cons_of_pos hy, List.countP_cons_of_pos (h y hy)]
          exact Nat.succ_lt_succ less
        · rw [List.countP_cons_of_neg hy, List.countP_cons]
          exact Nat.lt_of_lt_of_le less (Nat.le_add_right _ _)

/-- With a name that is built one less is not built. -/
theorem unfinished_finish {n : String} (hm : (R.members.lookup n).isSome) (hn : w.built n = none) (v : Value) :
    R.unfinished (w.finish n v) < R.unfinished w := by
  obtain ⟨j, hj⟩ := Option.isSome_iff_exists.mp hm
  refine countP_lt (Table.mem_of_lookup hj) ?_ ?_ fun e he => ?_
  · show (if n = n then some v else w.built n).isNone = false
    rw [if_pos rfl]
    rfl
  · rw [hn]
    rfl
  · change (if e.1 = n then some v else w.built e.1).isNone = true at he
    by_cases hen : e.1 = n
    · rw [if_pos hen] at he
      exact absurd he (by simp)
    · rwa [if_neg hen] at he

/-- What is delivered leads to a later world. The machine has steps enough if it has more than names are
not built. -/
def Delivers (R : PlainRoot k) (m : Machine) : Prop :=
  ∀ hops x n v w s, s.Bears (.ofFlights {x.flight n}) → R.Standing w s → w.built n = some v →
    After (m.deliver hops x (some v)) s (fun _ t => ∃ w', R.Advance none none w s w' t ∧ R.Standing w' t)
      fun _ => m.steps ≤ R.unfinished w

end PlainRoot

/-! ## Assignments -/

/-- An act that no name, no parked value and no record shows. -/
def Act.Still : Act → Prop
  | .release _ | .configured _ | .notify _ | .enter _ _ | .reach _ _ | .visit _ _ | .write _ _ => True
  | _ => False

namespace PlainRoot

variable {k : Container} {R : PlainRoot k} {m : Machine} {hand : Option ObjectId} {site : Option Home}
variable {w w' : World} {s t : Session}
variable {cut : Session → Prop}

theorem Idle.acted {a : Act} (ha : a.Still) : Idle s (s.acted a) := by
  have start : ∀ root, a ≠ .start root := by
    rintro root rfl
    exact ha
  have tracked := s.build.trackedOnes_apply start
  cases a with
  | release i | configured i | notify i | enter i names | reach i name | visit i name | write o name =>
      have same : (s.acted _).build.trackedOnes = s.build.trackedOnes := tracked.trans (List.append_nil _)
      exact ⟨⟨rfl, rfl, same ▸ List.prefix_refl _, Nat.le_refl _, fun o c hc hr => ⟨c, hc, hr, rfl⟩⟩,
        rfl, rfl, rfl, same, rfl⟩
  | _ => exact ha.elim

/-- A record that is told that it is configured keeps what it holds. -/
theorem Idle.finish {o : ObjectId} (hb : t.build = s.build) (hh : t.heap = s.heap.finish o) : Idle s t := by
  refine ⟨⟨?_, ?_, ?_, ?_, ?_⟩, ?_, ?_, ?_, ?_, by rw [hh, Heap.length_finish]⟩
  · rw [hb]
  · rw [hb]
  · rw [hb]
  · rw [hh, Heap.length_finish]
  · intro q c hc hr
    rw [hh]
    unfold Heap.finish
    split
    next c' hc' =>
      by_cases hq : o = q
      · subst hq
        obtain rfl : c = c' := Option.some.inj (hc.symm.trans hc')
        refine ⟨c.finish, Heap.getElem?_listSet_eq hc _, hr, ?_⟩
        show c.ofClass.configured c.fields = c.fields
        rw [hr]
        rfl
      · refine ⟨c, ?_, hr, rfl⟩
        rw [List.getElem?_set_ne hq]
        exact hc
    · exact ⟨c, hc, hr, rfl⟩
  · rw [hb]
  · rw [hb]
  · rw [hb]
  · rw [hb]

theorem notifyIfReady_idle (i : Nat) (s : Session) :
    After (Container.notifyIfReady i) s (fun _ t => Idle s t) cut := by
  unfold Container.notifyIfReady
  rw [Run.after_bind, Run.after_build]
  split
  · exact .refl s
  next x hx =>
    split
    · exact .refl s
    · rw [Run.after_bind, Run.after_act, Run.after_bind, Run.after_heap, Run.after_bind, Run.after_report,
        Run.after_finish]
      have told : Idle s (s.acted (.notify i)) := .acted trivial
      exact told.trans (.finish rfl rfl)

theorem release_idle (i : Nat) (s : Session) : After (Container.release i) s (fun _ t => Idle s t) cut := by
  have made : Idle s (s.acted (.release i)) := .acted trivial
  unfold Container.release
  rw [Run.after_bind, Run.after_act]
  exact (notifyIfReady_idle i _).mono (fun _ _ h => made.trans h) fun _ => id

theorem markConfigured_idle (i : Nat) (s : Session) :
    After (Container.markConfigured i) s (fun _ t => Idle s t) cut := by
  have marked : Idle s (s.acted (.configured i)) := .acted trivial
  unfold Container.markConfigured
  rw [Run.after_bind, Run.after_act]
  exact (notifyIfReady_idle i _).mono (fun _ _ h => marked.trans h) fun _ => id

/-- A component that was made for a node is tracked. -/
theorem track_wires {o : ObjectId} (h : R.Standing w s) (ho : (w.home o).isSome) :
    After (Container.track o) s (fun _ t => R.Advance hand site w s w t ∧ R.Standing w t) cut := by
  unfold Container.track
  rw [Run.after_bind, Run.after_build]
  split
  · exact ⟨.refl w s, h⟩
  · refine ⟨.still rfl rfl, h.named.congr (.refl w) rfl rfl rfl rfl rfl, ?_, h.lodged.mono rfl fun _ => id, ?_,
      h.visited, ?_⟩
    · exact h.parked.mono (.refl w) rfl rfl ⟨[o], ((s.build.trackedOnes_apply (a := .track o) (by simp)).symm)⟩
    · intro q p ms hq
      obtain ⟨c, hc, hold⟩ := h.holding q p ms hq
      refine ⟨c, hc, hold.mono (.refl w) rfl (fun i key d hi hd => ⟨i, d, hi, hd.mono ?_⟩) hold.record rfl⟩
      exact ⟨[o], ((s.build.trackedOnes_apply (a := .track o) (by simp)).symm)⟩
    · intro q hq
      rw [s.build.trackedOnes_apply (a := .track o) (by simp)] at hq
      rcases List.mem_append.mp hq with hq | hq
      · exact h.tracked q hq
      · obtain rfl : q = o := by simpa [Act.tracked?] using hq
        exact ho

/-- A value for a property of any type is written as it is. -/
theorem assign_after (host : Host) (o : ObjectId) (key : String) (v : Value) (handler : Handler) (s : Session) :
    After (Container.assign host o ⟨key, .any⟩ v handler) s
      (fun _ t => t.build = s.build ∧ t.heap = (s.heap.set o key v).2) cut := by
  unfold Container.assign
  rw [Run.after_bind, Run.after_heap]
  show After (Run.act (.write o key) >>= _) s _ cut
  rw [Run.after_bind, Run.after_act, Run.after_bind, Run.after_setProperty]
  split
  · exact ⟨rfl, rfl⟩
  · exact ⟨rfl, rfl⟩

/-! ## Parked values -/

/-- What is delivered into a parked assignment is put into its place; with the last one it is made. -/
theorem fillProperty_wires (h : R.Standing w s) {i : Nat} {d : Deferred}
    (hd : s.build.deferred[i]? = some (some d)) {place : List Place} {p : Pending}
    (hp : d.value.at? place = some (.pending p)) {v : Value} (hv : w.built p.name = some v) :
    After (k.fillProperty i place (some v)) s (fun _ t => R.Advance none none w s w t ∧ R.Standing w t) cut := by
  obtain ⟨-, o, key, q, ms, j, hparks, -, -, -, hr⟩ := h.parked.assignment i d hd
  obtain ⟨-, begun, -⟩ := hr.of_at? h.named.sane.complete rfl hp
  have worth : v.isNull = false := (h.named.sound _ v hv).worthwhile ((h.named.begun _).mp begun).2
  have parked : s.build.deferred[i]?.join = some d := by rw [hd]; rfl
  unfold Container.fillProperty
  rw [Run.after_bind, Run.after_build, parked]
  show After (Run.act (.fill i place v) >>= _) s _ cut
  rw [Run.after_bind, Run.after_act]
  split
  next more =>
    exact ⟨.still rfl rfl, h.fill hd hp hv more⟩
  next last =>
    rw [Run.after_bind, Run.after_build]
    obtain ⟨x, hx, hxo⟩ : ∃ x, s.build.objects[d.owner]? = some x ∧ x.object = o := by
      have owner := hparks.1
      rw [Build.trackedOnes, List.getElem?_map] at owner
      exact Option.map_eq_some_iff.mp owner
    have objects : (s.build.apply (.fill i place v)).objects[d.owner]? = some x := hx
    rw [objects]
    have filled : (d.filled place v).value.isNull = false := by
      refine Bool.eq_false_iff.mpr fun hn => ?_
      rw [Value.isNull_setAt hp hn] at worth
      exact absurd worth (by simp)
    dsimp only
    rw [if_neg (by rw [Option.getD_some, filled]; exact Bool.false_ne_true), Run.after_bind, hparks.2, hxo]
    refine (assign_after k.host o key _ d.handler _).mono (fun _ t ht => ?_) fun _ => id
    obtain ⟨hb, hh⟩ := ht
    have made : R.Standing w t := h.fill_write hd hp hv last hparks hb hh
    have still : R.Advance none none w s w t := by
      refine .still ?_ ?_
      · rw [hb]
        rfl
      · rw [hh, Heap.length_set]
    refine (release_idle d.owner t).mono (fun _ u hu => ?_) fun _ => id
    exact ⟨still.trans (.idle hu), made.idle hu⟩

/-! ## Names -/

variable {n : String} {v : Value}

theorem deliverAll_wires (hm : R.Delivers m) (ha : m.Accounts) (hops : Nat) (xs : List Waiter)
    (hb : s.Bears (.ofFlights (xs.map (Waiter.flight n) : List Flight))) (h : R.Standing w s)
    (hv : w.built n = some v) :
    After (Container.deliverAll m hops (some v) xs) s (fun _ t => ∃ w', R.Advance none none w s w' t ∧ R.Standing w' t)
      fun _ => m.steps ≤ R.unfinished w := by
  induction xs generalizing s w with
  | nil => exact ⟨w, .refl w s, h⟩
  | cons x xs ih =>
      rw [List.map_cons, ← Multiset.cons_coe, ← Multiset.singleton_add] at hb
      have first := accounting.frame (ha.deliver hops x (some v) ⟨n, x.path⟩)
        (xs.map (Waiter.flight n) : List Flight) 0
      have served := hm hops x n v w s hb.left h hv
      show After (m.deliver hops x (some v) >>= fun _ => Container.deliverAll m hops (some v) xs) s _ _
      rw [Run.after_bind]
      refine (served.bears first hb).mono (fun _ t ht => ?_) fun _ => id
      obtain ⟨hb', w', hadv, h'⟩ := ht
      simp only [Burden.nothing, zero_add] at hb'
      refine (ih hb' h' (hadv.le.built n v hv)).mono (fun _ u hu => ?_) fun _ hc => ?_
      · obtain ⟨w'', hadv', h''⟩ := hu
        exact ⟨w'', hadv.trans hadv', h''⟩
      · exact Nat.le_trans hc (unfinished_anti hadv.le)

theorem Advance.finish (h : R.Standing w s) {ws : List Waiter}
    (hn : s.build.stateOf? n = some (.building ws)) (v : Value) :
    R.Advance hand site w s (w.finish n v) (s.acted (.finish n v)) := by
  have unbuilt : w.built n = none := h.named.built_eq_none fun u hu => absurd (hn.symm.trans hu) (by simp)
  refine .unmade (World.le_finish unbuilt v) (fun m hm => ?_) (fun m ws _ hm => ?_) rfl (fun _ _ _ => rfl) rfl
  · show ((s.build.apply (.finish n v)).stateOf? m).isSome
    rw [Build.isSome_stateOf?_finish hn]
    exact hm
  · change (s.build.apply (.finish n v)).stateOf? m = _ at hm
    rw [Build.stateOf?_finish] at hm
    split at hm
    · exact absurd hm (by simp)
    · exact ⟨ws, hm⟩

/-- A name is built, and whoever waits for it is served. -/
theorem finishName_wires (hm : R.Delivers m) (ha : m.Accounts) (hops : Nat) (hb : s.Bears (.ofName n))
    (h : R.Standing w s) (hv : StandsFor k.types R.members w n v) :
    After (Container.finishName m hops n v) s
      (fun _ t => ∃ w', R.Advance none none w s w' t ∧ R.Standing w' t ∧ w'.built n = some v)
      fun _ => m.steps < R.unfinished w := by
  obtain ⟨ws, hn⟩ := hb.building
  have unbuilt : w.built n = none := h.named.built_eq_none fun u hu => absurd (hn.symm.trans hu) (by simp)
  have known : (R.members.lookup n).isSome := h.named.known n (by rw [hn]; rfl)
  have built : (w.finish n v).built n = some v := if_pos rfl
  have less := unfinished_finish known unbuilt v
  have drained := (Container.through_settles (.inr ⟨v, rfl⟩)).bears hb
  have serve : ∀ t, Quiet (s.acted (.finish n v)) t →
      After (Container.deliverAll m hops (some v) (NameState.waiters (s.build.stateOf? n))) t
        (fun _ u => ∃ w', R.Advance none none w s w' u ∧ R.Standing w' u ∧ w'.built n = some v)
        fun _ => m.steps < R.unfinished w := by
    intro t ht
    have standing := (h.finish hn hv).idle (.of_quiet ht)
    refine (deliverAll_wires hm ha hops _ (drained.quiet ht) standing built).mono (fun _ u hu => ?_)
      fun _ hc => Nat.lt_of_le_of_lt hc less
    obtain ⟨w', hadv, h'⟩ := hu
    have begun : R.Advance none none w s (w.finish n v) t := (Advance.finish h hn v).trans (.idle (.of_quiet ht))
    exact ⟨w', begun.trans hadv, h', hadv.le.built n v built⟩
  unfold Container.finishName
  rw [Run.after_bind, Run.after_build, Run.after_bind, Run.after_act, Run.after_bind, Run.after_report]
  exact serve _ ⟨rfl, rfl, rfl⟩

/-- What is delivered into a parked named value is put into its place; with the last one the name is built. -/
theorem fillName_wires (hm : R.Delivers m) (ha : m.Accounts) (hops : Nat) {i : Nat} {place : List Place}
    {p : Pending} (hb : s.Bears (.ofFlights {⟨.name i, place, p⟩})) (h : R.Standing w s)
    (hv : w.built p.name = some v) :
    After (Container.fillName m hops i place (some v)) s
      (fun _ t => ∃ w', R.Advance none none w s w' t ∧ R.Standing w' t) fun _ => m.steps < R.unfinished w := by
  obtain ⟨d, hd, hp⟩ := parked_name hb
  have parked : s.build.deferredNames[i]?.join = some d := by rw [hd]; rfl
  have settles := Settles.bears (Container.fillName_settles (v := v) parked) hb
  have filled := h.fillName hd hp hv
  have still : R.Advance none none w s w (s.acted (.fillName i place v)) := .still rfl rfl
  obtain ⟨hcount, hflat, j, hj, hr⟩ := h.parked.named i d hd
  have complete := h.named.sane.complete
  unfold Container.fillName
  rw [Run.after_bind, Run.after_build, parked]
  show After (Run.act (.fillName i place v) >>= _) s _ _
  rw [Run.after_bind, Run.after_act]
  split
  · exact ⟨w, still, filled⟩
  next last =>
    have real := hr.setAt complete rfl hp hv
    have count : (Value.setAt v place d.value).placeholders.length = 0 :=
      (count_filled complete hcount hp hv).symm.trans (Nat.eq_zero_of_not_pos last)
    have sound : StandsFor k.types R.members w d.name (d.filled place v).value :=
      real.toStandsFor hj h.named.sane (List.eq_nil_of_length_eq_zero count)
    have one : d.outstanding ≤ 1 := Nat.sub_eq_zero_iff_le.mp (Nat.eq_zero_of_not_pos last)
    rw [if_pos one] at settles
    refine (finishName_wires hm ha hops settles filled sound).mono (fun _ t ht => ?_) fun _ => id
    obtain ⟨w', hadv, h', -⟩ := ht
    exact ⟨w', still.trans hadv, h'⟩

/-- What is delivered leads to a later world. -/
theorem deliver_wires (hm : R.Delivers m) (ha : m.Accounts) (hops : Nat) {x : Waiter}
    (hb : s.Bears (.ofFlights {x.flight n})) (h : R.Standing w s) (hv : w.built n = some v) :
    After (k.deliver m hops x (some v)) s (fun _ t => ∃ w', R.Advance none none w s w' t ∧ R.Standing w' t)
      fun _ => m.steps < R.unfinished w := by
  obtain ⟨path, -⟩ := h.pending hb
  obtain ⟨slot, place, path'⟩ := x
  obtain rfl : path' = none := path
  cases slot with
  | property i =>
      obtain ⟨d, hd, hp⟩ := parked_property hb
      refine (fillProperty_wires h hd hp hv).mono (fun _ t ht => ?_) fun _ => id
      exact ⟨w, ht⟩
  | name i => exact fillName_wires hm ha hops hb h hv

/-- The container's machine delivers, with any number of steps. -/
theorem machine_delivers (R : PlainRoot k) (n : Nat) : R.Delivers (k.machine n) := by
  induction n with
  | zero => exact fun _ _ _ _ w _ _ _ _ => Nat.zero_le (R.unfinished w)
  | succ n ih =>
      intro hops x name v w s hb h hv
      refine (deliver_wires ih (Container.machine_accounts k n) hops hb h hv).mono (fun _ _ => id) fun _ hc => ?_
      rw [Container.steps_machine] at hc ⊢
      exact hc

/-! ## Placeholders -/

/-- A placeholder waits for its name, or is served at once. -/
theorem waitOn_wires (hm : R.Delivers m) (hops : Nat) {p : Pending} {slot : Slot} {place : List Place}
    (hb : s.Bears (.ofFlights {⟨slot, place, p⟩})) (h : R.Standing w s) :
    After (Container.waitOn m hops p slot place) s
      (fun _ t => ∃ w', R.Advance none none w s w' t ∧ R.Standing w' t) fun _ => m.steps ≤ R.unfinished w := by
  obtain ⟨-, begun⟩ := h.pending hb
  obtain ⟨there, hflat⟩ := (h.named.begun _).mp begun
  unfold Container.waitOn
  rw [Run.after_bind, Run.after_build]
  split
  next ws hs =>
    refine ⟨w, .unmade (.refl w) (fun m hm => ?_) (fun m ws' hf hm => ?_) rfl (fun _ _ _ => rfl) rfl,
      h.await hs hflat _⟩
    · show ((s.build.apply (.await p.name _)).stateOf? m).isSome
      rw [Build.isSome_stateOf?_await hs]
      exact hm
    · change (s.build.apply (.await p.name _)).stateOf? m = _ at hm
      rw [Build.stateOf?_await] at hm
      split at hm
      next he => exact absurd (he ▸ hf) hflat
      · exact ⟨ws', hm⟩
  next v hs => exact hm hops ⟨slot, place, p.path⟩ p.name v w s hb h ((h.named.built _ v).mpr hs)
  next hs =>
    rw [hs] at there
    exact absurd there (by simp)

theorem waitOnAll_wires (hm : R.Delivers m) (ha : m.Accounts) (hops : Nat) {slot : Slot}
    (leaves : List (List Place × Pending))
    (hb : s.Bears (.ofFlights (leaves.map fun l => (⟨slot, l.1, l.2⟩ : Flight) : List Flight)))
    (h : R.Standing w s) :
    After (Container.waitOnAll m hops slot leaves) s
      (fun _ t => ∃ w', R.Advance none none w s w' t ∧ R.Standing w' t) fun _ => m.steps ≤ R.unfinished w := by
  induction leaves generalizing s w with
  | nil => exact ⟨w, .refl w s, h⟩
  | cons leaf leaves ih =>
      obtain ⟨place, p⟩ := leaf
      rw [List.map_cons, ← Multiset.cons_coe, ← Multiset.singleton_add] at hb
      have first := accounting.frame (Container.waitOn_carries ha hops p slot place)
        (leaves.map fun l => (⟨slot, l.1, l.2⟩ : Flight) : List Flight) 0
      have waits := waitOn_wires hm hops hb.left h
      show After (Container.waitOn m hops p slot place >>= fun _ => Container.waitOnAll m hops slot leaves) s _ _
      rw [Run.after_bind]
      refine (waits.bears first hb).mono (fun _ t ht => ?_) fun _ => id
      obtain ⟨hb', w', hadv, h'⟩ := ht
      simp only [Burden.nothing, zero_add] at hb'
      refine (ih hb' h').mono (fun _ u hu => ?_) fun _ hc => ?_
      · obtain ⟨w'', hadv', h''⟩ := hu
        exact ⟨w'', hadv.trans hadv', h''⟩
      · exact Nat.le_trans hc (unfinished_anti hadv.le)

/-- A value for a name: the name is built, or it may be waited for. -/
theorem settleName_wires (hm : R.Delivers m) (ha : m.Accounts) (hops : Nat) (hb : s.Bears (.ofName n))
    (h : R.Standing w s) {j : Json} (hj : R.members.lookup n = some j) (hr : R.Realizes w (n, []) j (some v)) :
    After (Container.settleName m hops n v) s
      (fun _ t => ∃ w', R.Advance none none w s w' t ∧ R.Standing w' t ∧ ((w'.built n).isSome ∨ ¬ R.Flat n))
      fun _ => m.steps ≤ R.unfinished w := by
  have sane := h.named.sane
  unfold Container.settleName
  split
  next complete =>
    have finishes := finishName_wires hm ha hops hb h (hr.toStandsFor hj sane complete)
    refine finishes.mono (fun _ t ht => ?_) fun _ => Nat.le_of_lt
    obtain ⟨w', hadv, h', built⟩ := ht
    refine ⟨w', hadv, h', .inl ?_⟩
    rw [built]
    rfl
  next leaves =>
    have hflat : ¬ R.Flat n := fun hf => leaves (hr.complete_of_flat hf hj sane rfl)
    rw [Run.after_bind, Run.after_report, Run.after_bind, Run.after_build, Run.after_bind, Run.after_act]
    have parked := (Container.parkName_settles s n leaves).bears hb
    have wait : ∀ t, Quiet (s.acted (.parkName ⟨n, v, v.placeholders.length⟩)) t →
        After (Container.waitOnAll m hops (.name s.build.deferredNames.length) v.placeholders) t
          (fun _ u => ∃ w', R.Advance none none w s w' u ∧ R.Standing w' u ∧ ((w'.built n).isSome ∨ ¬ R.Flat n))
          fun _ => m.steps ≤ R.unfinished w := by
      intro t ht
      have standing := (h.parkName hflat hj hr).idle (.of_quiet ht)
      have begun : R.Advance none none w s w t := by
        refine .still ?_ ?_
        · rw [ht.build]
          rfl
        · rw [ht.heap]
      refine (waitOnAll_wires hm ha hops _ (parked.quiet ht) standing).mono (fun _ u hu => ?_) fun _ => id
      obtain ⟨w', hadv, h'⟩ := hu
      exact ⟨w', begun.trans hadv, h', .inr hflat⟩
    exact wait _ ⟨rfl, rfl, rfl⟩

/-! ## Properties -/

variable {o : ObjectId} {key : String}

theorem Advance.visit (w : World) (o : ObjectId) (key : String) (hn : t.build.names = s.build.names)
    (hl : t.heap.length = s.heap.length) : R.Advance (some o) none w s (w.visit o key) t := by
  have still : R.Advance (some o) none w s w t := .still hn hl
  refine .unmade (w.le_visit o key) still.kept still.calm hl (fun q _ hq => ?_) rfl
  funext l
  refine propext ⟨?_, .inl⟩
  rintro (hv | ⟨rfl, -⟩)
  · exact hv
  · exact absurd rfl hq

/-- A value for a property is assigned, or parked with all its placeholders seen to. -/
theorem injectAt_wires (hm : R.Delivers m) (ha : m.Accounts) (hops : Nat) {i : Nat}
    (hi : s.build.trackedOnes[i]? = some o) (hb : s.Bears .nothing) (h : R.Standing w s) {p : Home}
    {ms : List (String × Json)} (ho : w.home o = some (p, ms)) {j : Json} (hj : entryOf? ms key = some j)
    (hr : R.Realizes w (p.1, .key key :: p.2) j (some v)) (handler : Handler) :
    After (k.injectAt m hops i o ⟨key, .any⟩ v handler) s
      (fun _ t => ∃ w', R.Advance (some o) none w s w' t ∧ R.Standing w' t ∧
        ∀ l, w'.visited o l ↔ w.visited o l ∨ l = key)
      fun _ => m.steps ≤ R.unfinished w := by
  have visited : ∀ l, (w.visit o key).visited o l ↔ w.visited o l ∨ l = key := fun l => by simp [World.visit]
  unfold Container.injectAt
  split
  next complete =>
    refine (assign_after k.host o key v handler s).mono (fun _ t ht => ?_) fun _ => False.elim
    obtain ⟨hb', hh⟩ := ht
    refine ⟨w.visit o key, .visit w o key ?_ ?_, ?_, visited⟩
    · rw [hb']
    · rw [hh, Heap.length_set]
    · refine h.write ho hj hr complete ?_ ?_ ?_ hh (fun a d q l ha hd => .inr ⟨a, d, ?_, ?_⟩) (hb' ▸ rfl)
      · rw [hb']
        exact h.named
      · rw [hb']
        exact h.parked
      · rw [hb']
        exact h.lodged
      · rw [hb']
        exact ha
      · rw [hb']
        exact hd
  next leaves =>
    have inside : i < s.build.objects.length :=
      (Container.tracked_iff s.build i).mpr (List.getElem?_eq_some_iff.mp hi).1
    have parked := (Container.park_settles inside ⟨key, .any⟩ leaves handler).bears hb
    have wait : ∀ t, Quiet (s.acted (.park ⟨i, ⟨key, .any⟩, v, v.placeholders.length, handler⟩)) t →
        After (Container.waitOnAll m hops (.property s.build.deferred.length) v.placeholders) t
          (fun _ u => ∃ w', R.Advance (some o) none w s w' u ∧ R.Standing w' u ∧
            ∀ l, w'.visited o l ↔ w.visited o l ∨ l = key)
          fun _ => m.steps ≤ R.unfinished w := by
      intro t ht
      have standing := (h.park ho hj hr hi handler).idle (.of_quiet ht)
      have begun : R.Advance (some o) none w s (w.visit o key) t := by
        refine .visit w o key ?_ ?_
        · rw [ht.build]
          rfl
        · rw [ht.heap]
      refine (waitOnAll_wires hm ha hops _ (parked.quiet ht) standing).mono (fun _ u hu => ?_)
        fun _ hc => Nat.le_trans hc (unfinished_anti (w.le_visit o key))
      obtain ⟨w', hadv, h'⟩ := hu
      refine ⟨w', begun.trans hadv.weaken, h', fun l => ?_⟩
      have there : o < t.heap.length := by
        obtain ⟨c, hc, -⟩ := h.holding o p ms ho
        exact Nat.lt_of_lt_of_le (List.getElem?_eq_some_iff.mp hc).1 begun.length
      rw [hadv.visited o there (by simp)]
      exact visited l
    rw [Run.after_bind, Run.after_heap, Run.after_bind, Run.after_report, Run.after_bind, Run.after_build,
      Run.after_bind, Run.after_act]
    exact wait _ ⟨rfl, rfl, rfl⟩

end PlainRoot

end ObjectGraph
