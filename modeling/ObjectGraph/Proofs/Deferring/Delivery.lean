import ObjectGraph.Proofs.Deferring.Replacement
import ObjectGraph.Proofs.Steps
import ObjectGraph.Proofs.Waiting.Ledger

/-!
# `Proofs.Deferring.Delivery` — deferring is injecting

A value that holds placeholders is parked, and its places are filled one by one, in an order that depends on which
names are built first: some at once, others much later, with all kinds of things in between. In whatever order that
happens, the assignment is made once, with the last place, and what is assigned is the value with all placeholders
replaced at once: the same run as that of injecting this value in the first place.

Contents:
* `Build.Waits`, what a component waits for besides its parked assignments; `Step.waits`: no step changes it;
* `Build.deferred_fill`, `Step.slot`, `Step.filling`: what a step does to a slot;
* `Deferred.after`, `deliveries`; `MadeOnce`, `Fate`;
* `Steps.fate`, what becomes of a parked assignment along any row of steps; `fillAll_after`;
* `Value.substituted`, `Session.deferring`; `Defers`, `injectAt_defers`.
-/

namespace ObjectGraph

open Run (After Ends Within)

/-! ## What a component waits for -/

namespace Build

/-- A tracked component waits for its parked assignments, and for some besides. -/
def Waits (b : Build) (i : Nat) (o : ObjectId) (besides : Nat) : Prop :=
  ∃ r, b.objects[i]? = some r ∧ r.object = o ∧ r.pending = b.parkedFor i + besides

variable {b : Build} {i : Nat} {o : ObjectId} {besides : Nat}

theorem waits_park (h : b.Waits i o besides) (d : Deferred) : (b.apply (.park d)).Waits i o besides := by
  obtain ⟨r, tracked, object, pending⟩ := h
  have count : (b.apply (.park d)).parkedFor i = b.parkedFor i + if d.owner = i then 1 else 0 := by
    simp [apply, parkedFor, List.countP_append]
  by_cases same : d.owner = i
  · refine ⟨{ r with pending := r.pending + 1 }, ?_, object, ?_⟩
    · simp [apply, same, tracked]
    · rw [count, if_pos same]
      show r.pending + 1 = _
      omega
  · refine ⟨r, ?_, object, ?_⟩
    · simp [apply, same, tracked]
    · rw [count, if_neg same, pending]
      rfl

/-- An act that has nothing to do with parked assignments but that they may be parked. -/
theorem waits_apply {a : Act} (plain : a.Plain) (h : b.Waits i o besides) : (b.apply a).Waits i o besides := by
  have marked : ∀ (j : Nat) (f : Tracked → Tracked),
      (∀ r, (f r).object = r.object ∧ (f r).pending = r.pending) →
      Waits { b with objects := b.objects.modify j f } i o besides := by
    intro j f same
    obtain ⟨r, tracked, object, pending⟩ := h
    refine ⟨if j = i then f r else r, ?_, ?_, ?_⟩
    · simp [List.getElem?_modify, tracked]
    · split
      · rw [(same r).1, object]
      · exact object
    · split
      · rw [(same r).2]
        exact pending
      · exact pending
  cases a with
  | start | fill | release => exact plain.elim
  | park d => exact waits_park h d
  | track c =>
      obtain ⟨r, tracked, object, pending⟩ := h
      refine ⟨r, ?_, object, pending⟩
      exact List.getElem?_append_left (List.getElem?_eq_some_iff.mp tracked).1 ▸ tracked
  | configured j => exact marked j _ fun _ => ⟨rfl, rfl⟩
  | notify j => exact marked j _ fun _ => ⟨rfl, rfl⟩
  | _ => exact h

/-- A filled place that is not the last one leaves everything waiting. -/
theorem waits_fill {j : Nat} {d : Deferred} {place : List Place} {v : Value} (h : b.Waits i o besides)
    (parked : b.deferred[j]? = some (some d)) (stays : 1 < d.outstanding ∨ d.owner ≠ i) :
    (b.apply (.fill j place v)).Waits i o besides := by
  obtain ⟨r, tracked, object, pending⟩ := h
  have count := b.parkedFor_fill parked place v i
  have same : (b.apply (.fill j place v)).parkedFor i = b.parkedFor i := by
    rcases stays with more | other
    · rw [if_neg (Nat.not_le.mpr more)] at count
      exact Nat.add_right_cancel count
    · rw [if_neg other, ite_self] at count
      exact count
  exact ⟨r, tracked, object, by rw [same, pending]⟩

/-- With the last place the component waits for one parked assignment less, and is released from it. -/
theorem waits_release {j : Nat} {d : Deferred} (h : b.Waits i o besides) (parked : b.deferred[j]? = some (some d))
    (last : d.outstanding ≤ 1) (place : List Place) (v : Value) :
    ((b.apply (.fill j place v)).apply (.release d.owner)).Waits i o besides := by
  obtain ⟨r, tracked, object, pending⟩ := h
  have count := b.parkedFor_fill parked place v i
  rw [if_pos last] at count
  by_cases same : d.owner = i
  · rw [if_pos same] at count
    refine ⟨{ r with pending := r.pending - 1 }, ?_, object, ?_⟩
    · simp [apply, same, tracked]
    · show r.pending - 1 = (b.apply (.fill j place v)).parkedFor i + besides
      omega
  · rw [if_neg same] at count
    refine ⟨r, ?_, object, ?_⟩
    · simp [apply, same, tracked]
    · show r.pending = (b.apply (.fill j place v)).parkedFor i + besides
      omega

end Build

/-! ## What becomes of a slot -/

namespace Build

variable {b : Build} {j : Nat}

/-- What is parked stays parked, whatever plain act is made. -/
theorem deferred_apply {a : Act} (plain : a.Plain) (inside : j < b.deferred.length) :
    (b.apply a).deferred[j]? = b.deferred[j]? := by
  cases a with
  | start | fill | release => exact plain.elim
  | park d => exact List.getElem?_append_left inside
  | _ => rfl

theorem deferred_fill_of_ne {l : Nat} (place : List Place) (v : Value) (other : l ≠ j) :
    (b.apply (.fill l place v)).deferred[j]? = b.deferred[j]? := by
  simp [apply, other]

theorem deferred_fill {d : Deferred} (parked : b.deferred[j]? = some (some d)) (place : List Place) (v : Value) :
    (b.apply (.fill j place v)).deferred[j]? = some (if 1 < d.outstanding then some (d.filled place v) else none) := by
  have left : 0 < (d.filled place v).outstanding ↔ 1 < d.outstanding := Nat.sub_pos_iff_lt
  simp [apply, parked, Option.filter, left]

end Build

namespace Container

variable {k : Container} {s t : Session}

/-- What a component waits for besides its parked assignments no step changes. -/
theorem Step.waits {f : Option Filling} (step : k.Step f s t) {i : Nat} {o : ObjectId} {besides : Nat}
    (h : s.build.Waits i o besides) : t.build.Waits i o besides := by
  cases step with
  | quiet same => rwa [same]
  | act a plain => exact Build.waits_apply plain h
  | wait place v parked left =>
      refine Build.waits_fill h parked (left.imp_right ?_)
      intro untracked same
      obtain ⟨r, tracked, -⟩ := h
      rw [same, tracked] at untracked
      exact Option.some_ne_none r untracked
  | make place v parked last owner performed released =>
      have done := Build.waits_release h parked last place (v.getD .null)
      have same := (perform_leads k _ _ _).of_ended performed
      obtain only | told := (release_leads _ _).of_ended released
      · rw [only, same]
        exact done
      · rw [told, same]
        exact Build.waits_apply trivial done

/-- Where a place is filled, something is parked. -/
theorem Step.held {j : Nat} {place : List Place} {v : Option Value} {made : Option Deferred}
    (step : k.Step (some ⟨j, place, v, made⟩) s t) : ∃ d, s.build.deferred[j]? = some (some d) := by
  cases step with
  | wait _ _ parked => exact ⟨_, parked⟩
  | make _ _ parked => exact ⟨_, parked⟩

/-- A step that fills a place of an assignment with a tracked owner does nothing else, unless it is the last place:
then it makes the assignment and releases the owner. -/
theorem Step.filling {j : Nat} {place : List Place} {v : Option Value} {made : Option Deferred}
    (step : k.Step (some ⟨j, place, v, made⟩) s t) {d : Deferred} {o : ObjectId} {besides : Nat}
    (parked : s.build.deferred[j]? = some (some d)) (owner : s.build.Waits d.owner o besides) :
    (1 < d.outstanding ∧ made = none ∧ t = s.acted (.fill j place (v.getD .null))) ∨
      (d.outstanding ≤ 1 ∧ made = some (d.filled place (v.getD .null)) ∧
        ∃ w, k.perform o (d.filled place (v.getD .null)) (s.acted (.fill j place (v.getD .null))) = some ((), w) ∧
          release d.owner w = some ((), t)) := by
  obtain ⟨r, tracked, rfl, -⟩ := owner
  cases step with
  | wait _ _ held left =>
      cases held.symm.trans parked
      refine .inl ⟨left.resolve_right ?_, rfl, rfl⟩
      intro untracked
      exact Option.some_ne_none r (tracked.symm.trans untracked)
  | make _ _ held last owner performed released =>
      cases held.symm.trans parked
      cases owner.symm.trans tracked
      exact .inr ⟨last, rfl, _, performed, released⟩

/-- A step that fills no place of a slot leaves the slot as it is. -/
theorem Step.slot {f : Option Filling} (step : k.Step f s t) {j : Nat} (inside : j < s.build.deferred.length)
    (other : ∀ g ∈ f, g.slot ≠ j) : t.build.deferred[j]? = s.build.deferred[j]? := by
  cases step with
  | quiet same => rw [same]
  | act a plain => exact Build.deferred_apply plain inside
  | wait place v => exact Build.deferred_fill_of_ne _ _ (other _ rfl)
  | make place v parked last owner performed released =>
      have filled := Build.deferred_fill_of_ne (b := s.build) place (v.getD .null) (other _ rfl)
      rw [← filled]
      have same := (perform_leads k _ _ _).of_ended performed
      obtain only | told := (release_leads _ _).of_ended released
      · rw [only, same]
        rfl
      · rw [told, same]
        rfl

end Container

/-! ## What has been delivered -/

/-- A parked assignment after some of its places have been filled; nothing counts as null. -/
def Deferred.after (d : Deferred) (fills : List (List Place × Option Value)) : Deferred :=
  fills.foldl (fun d f => d.filled f.1 (f.2.getD .null)) d

theorem Deferred.after_concat (d : Deferred) (fills : List (List Place × Option Value)) (place : List Place)
    (v : Option Value) : d.after (fills ++ [(place, v)]) = (d.after fills).filled place (v.getD .null) := by
  simp [after]

theorem Deferred.after_eq (d : Deferred) (fills : List (List Place × Option Value)) :
    d.after fills =
      { d with
        value := (fills.map fun f => (f.1, f.2.getD .null)).foldl (fun w f => Value.setAt f.2 f.1 w) d.value
        outstanding := d.outstanding - fills.length } := by
  induction fills generalizing d with
  | nil => rfl
  | cons f fills ih =>
      show (d.filled f.1 (f.2.getD .null)).after fills = _
      rw [ih, List.length_cons, Nat.add_comm fills.length 1, ← Nat.sub_sub]
      rfl

namespace Container

variable {k : Container} {j : Nat} {o : ObjectId} {d : Deferred} {fs gs : List Filling} {s t u : Session}

/-- What has been delivered to a slot. -/
def deliveries (j : Nat) (fs : List Filling) : List (List Place × Option Value) :=
  (fs.filter (·.slot == j)).map fun f => (f.place, f.result)

theorem deliveries_append (j : Nat) (fs gs : List Filling) :
    deliveries j (fs ++ gs) = deliveries j fs ++ deliveries j gs := by
  simp [deliveries]

theorem deliveries_of_ne (other : ∀ f ∈ fs, f.slot ≠ j) : deliveries j fs = [] := by
  have none : fs.filter (·.slot == j) = [] := List.filter_eq_nil_iff.mpr fun f hf => by simpa using other f hf
  rw [deliveries, none, List.map_nil]

theorem deliveries_concat (fs : List Filling) (place : List Place) (v : Option Value) (made : Option Deferred) :
    deliveries j (fs ++ [⟨j, place, v, made⟩]) = deliveries j fs ++ [(place, v)] := by
  simp [deliveries]

/-- On the way, an assignment is made once: with the last place of its slot that is filled, by the run that starts
where this place is filled. -/
inductive MadeOnce (k : Container) (j : Nat) (o : ObjectId) (d : Deferred) (s u : Session) : List Filling → Prop
  | last {before rest : List Filling} {f : Filling} {v w w' : Session} (first : k.Steps before s v)
      (unmade : ∀ g ∈ before, g.slot = j → g.made = none) (slot : f.slot = j) (made : f.made = some d)
      (performed : k.perform o d (v.acted (.fill j f.place (f.result.getD .null))) = some ((), w))
      (released : release d.owner w = some ((), w')) (later : k.Steps rest w' u)
      (others : ∀ g ∈ rest, g.slot ≠ j) :
      MadeOnce k j o d s u (before ++ f :: rest)

/-- What becomes of an assignment that is parked in a slot, along a row of steps. -/
inductive Fate (k : Container) (j : Nat) (o : ObjectId) (d : Deferred) (s u : Session) (fs : List Filling) : Prop
  | waits (left : (deliveries j fs).length < d.outstanding)
      (parked : u.build.deferred[j]? = some (some (d.after (deliveries j fs))))
      (unmade : ∀ f ∈ fs, f.slot = j → f.made = none)
  | made (full : (deliveries j fs).length = d.outstanding) (gone : u.build.deferred[j]? = some none)
      (once : k.MadeOnce j o (d.after (deliveries j fs)) s u fs)

theorem Fate.inside (h : k.Fate j o d s u fs) : j < u.build.deferred.length := by
  cases h with
  | waits left parked => exact (List.getElem?_eq_some_iff.mp parked).1
  | made full gone => exact (List.getElem?_eq_some_iff.mp gone).1

theorem MadeOnce.tail (h : k.MadeOnce j o d s t fs) {f : Option Filling} (step : k.Step f t u)
    (other : ∀ g ∈ f, g.slot ≠ j) : k.MadeOnce j o d s u (fs ++ f.toList) := by
  obtain ⟨first, unmade, slot, made, performed, released, later, others⟩ := h
  rw [List.append_assoc, List.cons_append]
  refine .last first unmade slot made performed released (.tail later step) ?_
  intro g hg
  rcases List.mem_append.mp hg with old | new
  · exact others g old
  · exact other g (Option.mem_toList.mp new)

/-- A step that fills no place of the slot changes nothing for the assignment. -/
theorem Fate.other (h : k.Fate j o d s t fs) {f : Option Filling} (step : k.Step f t u)
    (other : ∀ g ∈ f, g.slot ≠ j) : k.Fate j o d s u (fs ++ f.toList) := by
  have stays := step.slot h.inside other
  have same : deliveries j (fs ++ f.toList) = deliveries j fs := by
    rw [deliveries_append, deliveries_of_ne fun g hg => other g (Option.mem_toList.mp hg), List.append_nil]
  cases h with
  | waits left parked unmade =>
      refine .waits (same ▸ left) (by rw [stays, parked, same]) ?_
      intro g hg slot
      rcases List.mem_append.mp hg with old | new
      · exact unmade g old slot
      · exact absurd slot (other g (Option.mem_toList.mp new))
  | made full gone once =>
      refine .made (same ▸ full) (by rw [stays, gone]) ?_
      rw [same]
      exact once.tail step other

/-- What is parked in the slot is the assignment with what has been delivered. -/
theorem Fate.held (h : k.Fate j o d s t fs) {e : Deferred} (held : t.build.deferred[j]? = some (some e)) :
    e = d.after (deliveries j fs) ∧ (deliveries j fs).length < d.outstanding ∧
      ∀ f ∈ fs, f.slot = j → f.made = none := by
  cases h with
  | waits left parked unmade => exact ⟨Option.some.inj (Option.some.inj (held.symm.trans parked)), left, unmade⟩
  | made full gone once => exact absurd (held.symm.trans gone) (by simp)

/-- A step that fills a place of the slot fills one more place of the assignment, and makes it if that is the last. -/
theorem Fate.own (h : k.Fate j o d s t fs) (first : k.Steps fs s t) {besides : Nat}
    (owner : t.build.Waits d.owner o besides) {place : List Place} {v : Option Value} {made : Option Deferred}
    (step : k.Step (some ⟨j, place, v, made⟩) t u) : k.Fate j o d s u (fs ++ [⟨j, place, v, made⟩]) := by
  obtain ⟨e, parked⟩ := step.held
  obtain ⟨rfl, few, unmade⟩ := h.held parked
  have count : (d.after (deliveries j fs)).outstanding = d.outstanding - (deliveries j fs).length := by
    rw [Deferred.after_eq]
  have kept : (d.after (deliveries j fs)).owner = d.owner := by
    rw [Deferred.after_eq]
  have one : (deliveries j (fs ++ [⟨j, place, v, made⟩])).length = (deliveries j fs).length + 1 := by
    rw [deliveries_concat, List.length_append, List.length_singleton]
  have filled := Build.deferred_fill parked place (v.getD .null)
  obtain ⟨more, rfl, rfl⟩ | ⟨last, rfl, w, performed, released⟩ := step.filling parked (kept ▸ owner)
  · rw [if_pos more] at filled
    refine .waits (by omega) ?_ ?_
    · rw [deliveries_concat, Deferred.after_concat]
      exact filled
    · intro f hf same
      rcases List.mem_append.mp hf with old | new
      · exact unmade f old same
      · rw [List.mem_singleton.mp new]
  · rw [if_neg (Nat.not_lt.mpr last)] at filled
    refine .made (by omega) ?_ ?_
    · have same := (perform_leads k _ _ _).of_ended performed
      obtain only | told := (release_leads _ _).of_ended released
      · rw [only, same]
        exact filled
      · rw [told, same]
        exact filled
    · rw [deliveries_concat, Deferred.after_concat]
      exact .last first unmade rfl rfl performed released (.refl u) fun g hg => absurd hg List.not_mem_nil

/-- What becomes of an assignment that is parked, whatever steps are taken. -/
theorem Steps.fate (steps : k.Steps fs s u) (parked : s.build.deferred[j]? = some (some d))
    (places : 0 < d.outstanding) {besides : Nat} (owner : s.build.Waits d.owner o besides) :
    k.Fate j o d s u fs ∧ u.build.Waits d.owner o besides := by
  induction steps with
  | refl => exact ⟨.waits places parked fun _ none => absurd none List.not_mem_nil, owner⟩
  | @tail fs f s t u steps step ih =>
      obtain ⟨fate, waits⟩ := ih parked owner
      refine ⟨?_, step.waits waits⟩
      by_cases other : ∀ g ∈ f, g.slot ≠ j
      · exact fate.other step other
      · push Not at other
        obtain ⟨⟨_, place, v, made⟩, rfl, rfl⟩ := other
        exact fate.own steps waits step

/-! ## Delivering what is left -/

/-- Fills places of a slot, one after the other. -/
def fillAll (k : Container) (j : Nat) : List (List Place × Option Value) → Run Unit
  | [] => return ()
  | f :: fills => do
      k.fillProperty j f.1 f.2
      fillAll k j fills

/-- The session in which places of a slot have been filled, and nothing else has been done. -/
def filling (j : Nat) (fills : List (List Place × Option Value)) (s : Session) : Session :=
  fills.foldl (fun s f => s.acted (.fill j f.1 (f.2.getD .null))) s

/-- What is left can be delivered: the places are filled, then the assignment is made and the owner released, and
nothing else happens. -/
theorem fillAll_after (first : k.Steps fs s t) (parked : s.build.deferred[j]? = some (some d)) {besides : Nat}
    (owner : s.build.Waits d.owner o besides) {fills : List (List Place × Option Value)} (left : fills ≠ [])
    (all : (deliveries j fs).length + fills.length = d.outstanding) :
    After (k.fillAll j fills) t
      (fun _ u => (∃ more, k.Steps more t u ∧ deliveries j more = fills) ∧
        ∃ w, k.perform o (d.after (deliveries j fs ++ fills)) (filling j fills t) = some ((), w) ∧
          release d.owner w = some ((), u))
      fun _ => False := by
  induction fills generalizing fs t with
  | nil => exact absurd rfl left
  | cons f fills ih =>
      rw [List.length_cons] at all
      obtain ⟨fate, waits⟩ := first.fate parked (by omega) owner
      have held : t.build.deferred[j]? = some (some (d.after (deliveries j fs))) := by
        cases fate with
        | waits _ held => exact held
        | made full => omega
      have count : (d.after (deliveries j fs)).outstanding = d.outstanding - (deliveries j fs).length := by
        rw [Deferred.after_eq]
      have kept : (d.after (deliveries j fs)).owner = d.owner := by
        rw [Deferred.after_eq]
      unfold fillAll
      rw [Run.after_bind]
      refine (fillProperty_after k j f.1 f.2 t).mono (fun _ u filled => ?_) fun _ => id
      obtain ⟨nothing, -⟩ | ⟨e, made, -, step⟩ := filled
      · exact absurd (Option.join_eq_some_iff.mpr held) (by rw [nothing]; exact nofun)
      · have here : deliveries j [⟨j, f.1, f.2, made⟩] = [f] := deliveries_concat [] f.1 f.2 made
        obtain ⟨more, -, rfl⟩ | ⟨last, -, w, performed, released⟩ := step.filling held (kept ▸ waits)
        · have some : fills ≠ [] := by
            rintro rfl
            rw [List.length_nil] at all
            omega
          have next : deliveries j (fs ++ [⟨j, f.1, f.2, made⟩]) = deliveries j fs ++ [f] :=
            deliveries_concat fs f.1 f.2 made
          have fewer : (deliveries j (fs ++ [⟨j, f.1, f.2, made⟩])).length + fills.length = d.outstanding := by
            rw [next, List.length_append, List.length_singleton]
            omega
          refine (ih (first.tail step) some fewer).mono (fun _ u delivered => ?_) fun _ => id
          obtain ⟨⟨rest, later, same⟩, w, performed, released⟩ := delivered
          refine ⟨⟨⟨j, f.1, f.2, made⟩ :: rest, (Steps.one step).trans later, ?_⟩, w, ?_, released⟩
          · rw [← List.singleton_append, deliveries_append, here, same, List.singleton_append]
          · rw [← List.singleton_append, ← List.append_assoc, ← next]
            exact performed
        · have none : fills = [] := List.length_eq_zero_iff.mp (by omega)
          subst none
          rw [kept] at released
          refine ⟨⟨_, .one step, here⟩, w, ?_, released⟩
          rw [Deferred.after_concat]
          exact performed

end Container

/-! ## Deferring -/

/-- The value with each placeholder replaced by what is delivered to its place; nothing counts as null. -/
def Value.substituted (w : Value) (σ : List Place → Option Value) : Value :=
  w.replaced fun place => (σ place).getD .null

/-- What the places of the placeholders in a value are to be filled with. -/
def Value.results (w : Value) (σ : List Place → Option Value) : List (List Place × Option Value) :=
  w.placeholders.map fun l => (l.1, σ l.1)

/-- If all places have been filled, in whatever order, the value is the substituted one. -/
theorem Deferred.after_results {d : Deferred} {σ : List Place → Option Value}
    {fills : List (List Place × Option Value)} (whole : d.outstanding = d.value.placeholders.length)
    (all : fills.Perm (d.value.results σ)) :
    d.after fills = { d with value := d.value.substituted σ, outstanding := 0 } := by
  have each : (d.value.results σ).map (fun f => (f.1, f.2.getD .null))
      = d.value.placeholders.map fun l => (l.1, (σ l.1).getD .null) := by
    rw [Value.results, List.map_map]
    rfl
  have none : d.outstanding - fills.length = 0 := by
    rw [whole, all.length_eq, Value.results, List.length_map, Nat.sub_self]
  have filled : (fills.map fun f => (f.1, f.2.getD .null)).foldl (fun w f => Value.setAt f.2 f.1 w) d.value
      = d.value.substituted σ := Value.foldl_setAt (each ▸ all.map _)
  rw [after_eq, none, filled]

/-- The session in which a value has been parked for a property, and its placeholders are to wait. -/
def Session.deferring (s : Session) (i : Nat) (o : ObjectId) (p : Property) (w : Value) (handler : Handler) : Session :=
  let told : Log.Event := ⟨.debug, Container.cycleTarget, some "deferring injection",
    [("type_name", .text (s.heap.typeName o)), ("property", .shown p.name),
     ("waiting", .shown (Decimal.natText w.placeholders.length))]⟩
  { s with events := told :: s.events }.acted (.park ⟨i, p, w, w.placeholders.length, handler⟩)

namespace Container

/-- Injecting a value that holds placeholders parks it and lets its placeholders wait. -/
theorem injectAt_eq_waitOnAll {k : Container} {m : Machine} {hops i : Nat} {o : ObjectId} {p : Property} {w : Value}
    {handler : Handler} {s : Session} (holds : w.placeholders ≠ []) :
    k.injectAt m hops i o p w handler s
      = waitOnAll m hops (.property s.build.deferred.length) w.placeholders (s.deferring i o p w handler) := by
  unfold injectAt
  split
  next none => exact absurd none holds
  next => rfl

/-- For a property of a component that is tracked at `i`, deferring a value comes to injecting another one: the value
with each placeholder replaced by what `σ` gives for its place. -/
structure Defers (k : Container) (s : Session) (i : Nat) (o : ObjectId) (p : Property) (w : Value) (handler : Handler)
    (σ : List Place → Option Value) : Prop where
  /-- Injecting the value parks it. What follows at once are steps from there, as what follows later. -/
  parks : ∀ n hops t, k.injectAt (k.machine n) hops i o p w handler s = some ((), t) →
    ∃ fs, k.Steps fs (s.deferring i o p w handler) t
  /-- Once all places have been filled, in whatever order and whatever else has been done, the assignment has been
  made, once and with the last place. -/
  once : ∀ fs u, k.Steps fs (s.deferring i o p w handler) u →
    (deliveries s.build.deferred.length fs).Perm (w.results σ) →
      k.MadeOnce s.build.deferred.length o ⟨i, p, w.substituted σ, 0, handler⟩ (s.deferring i o p w handler) u fs
  /-- Then nothing is parked any more, and the component waits for what it waited for before, but for what has been
  parked for it or made since. -/
  frees : ∀ fs u, k.Steps fs (s.deferring i o p w handler) u →
    (deliveries s.build.deferred.length fs).Perm (w.results σ) →
      u.build.deferred[s.build.deferred.length]? = some none ∧
      ∀ r, s.build.objects[i]? = some r → ∃ r', u.build.objects[i]? = some r' ∧ r'.object = o ∧
        r'.pending + s.build.parkedFor i = r.pending + u.build.parkedFor i
  /-- Until then, what is left can be delivered, in any order: this fills the places, makes the assignment, releases
  the component and does nothing else. -/
  delivers : ∀ fs u rest, k.Steps fs (s.deferring i o p w handler) u → rest ≠ [] →
    (deliveries s.build.deferred.length fs ++ rest).Perm (w.results σ) →
      ∃ t v, k.fillAll s.build.deferred.length rest u = some ((), t) ∧
        k.perform o ⟨i, p, w.substituted σ, 0, handler⟩ (filling s.build.deferred.length rest u) = some ((), v) ∧
        release i v = some ((), t) ∧
        ∃ more, k.Steps more u t ∧ deliveries s.build.deferred.length more = rest
  /-- Making the assignment converts and sets the value. -/
  assigns : (w.substituted σ).isNull = false →
    k.perform o ⟨i, p, w.substituted σ, 0, handler⟩ = assign k.host o p (w.substituted σ) handler
  /-- So does injecting the value, if no placeholder is left in it. -/
  injects : (w.substituted σ).placeholders = [] → ∀ m hops,
    k.injectAt m hops i o p (w.substituted σ) handler = assign k.host o p (w.substituted σ) handler
  /-- Only null is not assigned. -/
  drops : (w.substituted σ).isNull = true →
    k.perform o ⟨i, p, w.substituted σ, 0, handler⟩
      = Run.report .debug target "deferred reference resolved to nothing" [("property", .shown p.name)]

/-- Deferring is injecting, for every value that holds placeholders and whatever is delivered to its places. What is
parked for the component already is part of what it waits for. -/
theorem injectAt_defers {k : Container} {s : Session} {i : Nat} {o : ObjectId} {r : Tracked} (p : Property) {w : Value}
    (handler : Handler) (tracked : s.build.objects[i]? = some r) (object : r.object = o)
    (counted : s.build.parkedFor i ≤ r.pending) (holds : w.placeholders ≠ []) (σ : List Place → Option Value) :
    k.Defers s i o p w handler σ := by
  have parked : (s.deferring i o p w handler).build.deferred[s.build.deferred.length]?
      = some (some ⟨i, p, w, w.placeholders.length, handler⟩) := by
    simp [Session.deferring, Build.apply]
  have places : 0 < w.placeholders.length := List.length_pos_iff.mpr holds
  have owner : (s.deferring i o p w handler).build.Waits i o (r.pending - s.build.parkedFor i) :=
    Build.waits_park ⟨r, tracked, object, by omega⟩ _
  have length : (w.results σ).length = w.placeholders.length := List.length_map _
  have whole : ∀ fills, fills.Perm (w.results σ) →
      Deferred.after ⟨i, p, w, w.placeholders.length, handler⟩ fills = ⟨i, p, w.substituted σ, 0, handler⟩ :=
    fun fills all => Deferred.after_results rfl all
  have fate : ∀ fs u, k.Steps fs (s.deferring i o p w handler) u →
      (deliveries s.build.deferred.length fs).Perm (w.results σ) →
      u.build.deferred[s.build.deferred.length]? = some none ∧
      k.MadeOnce s.build.deferred.length o ⟨i, p, w.substituted σ, 0, handler⟩ (s.deferring i o p w handler) u fs := by
    intro fs u steps all
    cases (steps.fate parked places owner).1 with
    | waits left => exact absurd (all.length_eq.trans length) left.ne
    | made full gone once => exact ⟨gone, whole _ all ▸ once⟩
  refine ⟨?parks, ?once, ?frees, ?delivers, ?assigns, ?injects, ?drops⟩
  case parks =>
    intro n hops t ended
    rw [injectAt_eq_waitOnAll holds] at ended
    exact ((machine_steps k n).serves.waitOnAll hops _ _ _).of_ended ended
  case once =>
    intro fs u steps all
    exact (fate fs u steps all).2
  case frees =>
    intro fs u steps all
    refine ⟨(fate fs u steps all).1, ?_⟩
    intro r₀ tracked₀
    obtain rfl : r = r₀ := Option.some.inj (tracked.symm.trans tracked₀)
    obtain ⟨r', tracked', object', pending⟩ := (steps.fate parked places owner).2
    change r'.pending = u.build.parkedFor i + (r.pending - s.build.parkedFor i) at pending
    exact ⟨r', tracked', object', by omega⟩
  case delivers =>
    intro fs u rest steps left all
    have full : (deliveries s.build.deferred.length fs).length + rest.length = w.placeholders.length := by
      rw [← List.length_append, all.length_eq, length]
    have filled := fillAll_after steps parked owner left full
    obtain ⟨⟨⟩, t, ended, steps, v, performed, released⟩ := filled.ends fun _ => id
    rw [whole _ all] at performed
    exact ⟨t, v, ended, performed, released, steps⟩
  case assigns =>
    intro there
    exact if_neg (by simp [there])
  case injects =>
    intro free m hops
    unfold injectAt
    rw [free]
  case drops =>
    intro null
    exact if_pos null

/-- A container that adds nothing to the surroundings. -/
def bareContainer : Container := ⟨.bare, .empty, .empty⟩

/-- A list of two: a placeholder for one name, and below a key a placeholder for another. -/
def couple : Value := .list [.pending (.make "a" none), .map [("x", .pending (.make "b" none))]]

/-- A record is tracked; one of the names is built, the other is building. -/
def halfway : Session :=
  { Session.start with
    heap := [.fresh .record []]
    build := { Build.start [] with
      names := [("a", .built (.string "one")), ("b", .building [])]
      objects := [⟨0, 0, false, false⟩] } }

/-- The second placeholder gets nothing, and the first its value after that: null stands where nothing came. -/
theorem injectAt_defers_couple :
    halfway.build.objects[0]? = some ⟨0, 0, false, false⟩ ∧ halfway.build.parkedFor 0 ≤ 0 ∧ couple.placeholders ≠ [] ∧
    (∃ t now, bareContainer.injectAt (bareContainer.machine 2) 0 0 0 ⟨"p", .any⟩ couple .empty halfway = some ((), t) ∧
      bareContainer.Steps now (halfway.deferring 0 0 ⟨"p", .any⟩ couple .empty) t) ∧
    ∃ u fs, bareContainer.fillAll 0 [([.index 1, .key "x"], none), ([.index 0], some (.string "one"))]
        (halfway.deferring 0 0 ⟨"p", .any⟩ couple .empty) = some ((), u) ∧
      bareContainer.MadeOnce 0 0 ⟨0, ⟨"p", .any⟩, .list [.string "one", .map [("x", .null)]], 0, .empty⟩
        (halfway.deferring 0 0 ⟨"p", .any⟩ couple .empty) u fs ∧
      ∃ r, u.build.objects[0]? = some r ∧ r.pending = u.build.parkedFor 0 := by
  have holds : couple.placeholders ≠ [] := by decide +kernel
  have unparked : halfway.build.parkedFor 0 = 0 := by decide +kernel
  let σ : List Place → Option Value := fun place => if place = [.index 0] then some (.string "one") else none
  have defers := @injectAt_defers bareContainer halfway 0 0 ⟨0, 0, false, false⟩ ⟨"p", .any⟩ couple .empty rfl rfl
    unparked.le holds σ
  refine ⟨rfl, unparked.le, holds, ?_, ?_⟩
  · have ends : ((bareContainer.injectAt (bareContainer.machine 2) 0 0 0 ⟨"p", .any⟩ couple .empty).run halfway).1
        = some () := by decide +kernel
    have ended := Run.ended_iff.mpr (Prod.ext ends rfl)
    obtain ⟨steps, taken⟩ := defers.parks 2 0 _ ended
    exact ⟨_, steps, ended, taken⟩
  · have results : couple.results σ = [([.index 0], some (.string "one")), ([.index 1, .key "x"], none)] := rfl
    have order : [([.index 1, .key "x"], none), ([.index 0], some (.string "one"))].Perm (couple.results σ) := by
      rw [results]
      exact .swap _ _ _
    obtain ⟨u, -, ended, -, -, fs, steps, delivered⟩ := defers.delivers [] _ _ (.refl _) (List.cons_ne_nil _ _) order
    obtain ⟨-, pending⟩ := defers.frees fs u steps (delivered ▸ order)
    obtain ⟨r, tracked, -, pending⟩ := pending _ rfl
    refine ⟨u, fs, ended, defers.once fs u steps (delivered ▸ order), r, tracked, ?_⟩
    rwa [unparked, Nat.add_zero, Nat.zero_add] at pending

end Container

end ObjectGraph
