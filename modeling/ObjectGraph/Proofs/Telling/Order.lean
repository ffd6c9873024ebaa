import Mathlib.Data.List.TakeWhile
import ObjectGraph.Proofs.Run
import ObjectGraph.Proofs.Waiting.Accounting

/-!
# `Proofs.Telling.Order` — an order of acts in which components are told once, and last

The acts of a pass say when a component is tracked, which of its properties are going to be visited, which
have been, and when it is told that it is configured. If each act is in order where it is made
(`Act.InOrder`), a component is told at most once, not before all its properties have been visited and all
its assignments have been made, and nothing is written to it from then on.

That the acts of the container are in order is for other modules; here is what follows from it.

Contents:
* `Session.passActs`; `Act.mark`, what an act notes of a tracked component;
* `Act.InOrder`, `Ledger.Orderly`;
* `Ledger.Told` and `Told.after`; `told_of_trace`;
* `notify_once`, `notify_after_visits`, `not_written_once_told`.
-/

namespace ObjectGraph

open Run (GoesOn)

/-! ## The acts of a pass -/

/-- The acts of the pass at hand, the newest first. -/
def Session.passActs (s : Session) : List Act :=
  s.acts.takeWhile fun
    | .start _ => false
    | _ => true

theorem Session.passActs_of_goesOn {s t : Session} (h : GoesOn s t) :
    ∃ acts, t.passActs = acts ++ s.passActs ∧ t.acts = acts ++ s.acts := by
  obtain ⟨acts, ht, hn⟩ := h
  refine ⟨acts, ?_, ht⟩
  unfold passActs
  rw [ht, List.takeWhile_append_of_pos]
  intro a ha
  cases a with
  | start root => exact absurd ha (hn root)
  | _ => rfl

theorem Session.passActs_act {s t : Session} {a : Act} (ht : t.acts = a :: s.acts)
    (ha : ∀ root, a ≠ .start root) : t.passActs = a :: s.passActs := by
  unfold passActs
  rw [ht, List.takeWhile_cons_of_pos]
  cases a with
  | start root => exact absurd rfl (ha root)
  | _ => rfl

theorem Session.passActs_acted (s : Session) {a : Act} (ha : ∀ root, a ≠ .start root) :
    (s.acted a).passActs = a :: s.passActs := passActs_act rfl ha

/-- The acts up to a moment of a pass are those of a pass. -/
theorem Session.passActs_of_suffix {s t : Session} (h : s.acts <:+ t.passActs) : s.passActs = s.acts := by
  refine List.takeWhile_eq_self_iff.mpr fun a ha => ?_
  exact List.mem_takeWhile_imp (l := t.acts) (h.subset ha)

/-! ## What acts note of components -/

/-- What an act notes of the tracked component at a position. -/
def Act.mark (i : Nat) (t : Tracked) : Act → Tracked
  | .park d => if d.owner = i then { t with pending := t.pending + 1 } else t
  | .release j => if j = i then { t with pending := t.pending - 1 } else t
  | .configured j => if j = i then { t with configured := true } else t
  | .notify j => if j = i then { t with notified := true } else t
  | _ => t

@[simp] theorem Act.mark_object (i : Nat) (t : Tracked) (a : Act) : (a.mark i t).object = t.object := by
  cases a <;> simp only [mark] <;> split <;> rfl

/-- Who has been configured stays so. -/
theorem Act.mark_configured {t : Tracked} (ht : t.configured = true) (i : Nat) (a : Act) :
    (a.mark i t).configured = true := by
  cases a <;> simp only [mark, ht] <;> split <;> simp [ht]

/-- Only by saying so does a component become configured. -/
theorem Act.mark_configured_of_ne {i : Nat} {a : Act} (ha : a ≠ .configured i) (t : Tracked) :
    (a.mark i t).configured = t.configured := by
  cases a with
  | configured j =>
      have hj : j ≠ i := fun h => ha (h ▸ rfl)
      simp [mark, hj]
  | park d | release j | notify j => simp only [mark]; split <;> rfl
  | _ => rfl

/-- Who has been told stays told. -/
theorem Act.mark_notified {t : Tracked} (ht : t.notified = true) (i : Nat) (a : Act) :
    (a.mark i t).notified = true := by
  cases a <;> simp only [mark, ht] <;> split <;> simp [ht]

/-- Only by saying so is a component told. -/
theorem Act.mark_notified_of_ne {i : Nat} {a : Act} (ha : a ≠ .notify i) (t : Tracked) :
    (a.mark i t).notified = t.notified := by
  cases a with
  | notify j =>
      have hj : j ≠ i := fun h => ha (h ▸ rfl)
      simp [mark, hj]
  | park d | release j | configured j => simp only [mark]; split <;> rfl
  | _ => rfl

namespace Build

variable {b : Build} {a : Act} {i : Nat} {t : Tracked}

/-- A tracked component stays where it is. -/
theorem objects_apply (ha : ∀ root, a ≠ .start root) (ht : b.objects[i]? = some t) :
    (b.apply a).objects[i]? = some (a.mark i t) := by
  have inside : i < b.objects.length := (List.getElem?_eq_some_iff.mp ht).1
  cases a with
  | start root => exact absurd rfl (ha root)
  | track o => simpa [apply, Act.mark, List.getElem?_append_left inside] using ht
  | park d | release j | configured j | notify j =>
      simp only [apply, Act.mark, List.getElem?_modify, ht]
      split <;> simp_all
  | _ => exact ht

/-- What is tracked after an act was tracked before, or is being tracked by it. -/
theorem of_objects_apply (ha : ∀ root, a ≠ .start root) (ht : (b.apply a).objects[i]? = some t) :
    (∃ u, b.objects[i]? = some u ∧ t = a.mark i u) ∨
      ∃ o, a = .track o ∧ i = b.objects.length ∧ t = ⟨o, 0, false, false⟩ := by
  rcases hu : b.objects[i]? with _ | u
  · have outside : b.objects.length ≤ i := List.getElem?_eq_none_iff.mp hu
    cases a with
    | start root => exact absurd rfl (ha root)
    | track o =>
        obtain ⟨hi, rfl⟩ : i - b.objects.length = 0 ∧ ⟨o, 0, false, false⟩ = t := by
          simpa [apply, List.getElem?_append_right outside, List.getElem?_singleton] using ht
        exact .inr ⟨o, rfl, by omega, rfl⟩
    | park d | release j | configured j | notify j =>
        simp [apply, List.getElem?_modify, hu] at ht
    | _ => exact absurd (ht.symm.trans hu) (by simp)
  · rw [objects_apply ha hu] at ht
    exact .inl ⟨u, rfl, (Option.some.inj ht).symm⟩

/-- Each component is tracked once if nothing is tracked that is already. -/
theorem distinct_apply (ha : ∀ root, a ≠ .start root)
    (htrack : ∀ o, a = .track o → ∀ t ∈ b.objects, t.object ≠ o)
    (hn : (b.objects.map (·.object)).Nodup) : ((b.apply a).objects.map (·.object)).Nodup := by
  change (b.apply a).trackedOnes.Nodup
  rw [trackedOnes_apply b ha]
  refine List.nodup_append.mpr ⟨hn, ?_, fun p hp q hq hpq => ?_⟩
  · cases a.tracked? <;> simp
  · cases a with
    | track o =>
        obtain rfl : q = o := by simpa [Act.tracked?] using hq
        obtain ⟨t, ht, rfl⟩ := List.mem_map.mp hp
        exact htrack _ rfl t ht hpq
    | _ => exact absurd hq (by simp [Act.tracked?])

/-- What is parked after an act was parked before, or is being parked by it. -/
theorem of_deferred_apply (ha : ∀ root, a ≠ .start root) {d : Deferred}
    (hd : some d ∈ (b.apply a).deferred) :
    (∃ d', some d' ∈ b.deferred ∧ d'.owner = d.owner ∧ d'.property = d.property) ∨ a = .park d := by
  cases a with
  | start root => exact absurd rfl (ha root)
  | park d' =>
      rcases List.mem_append.mp hd with hd | hd
      · exact .inl ⟨d, hd, rfl, rfl⟩
      · obtain rfl : d = d' := Option.some.inj (List.mem_singleton.mp hd)
        exact .inr rfl
  | fill i place v =>
      obtain ⟨j, hj⟩ := List.mem_iff_getElem?.mp hd
      rw [apply, List.getElem?_modify] at hj
      by_cases hij : i = j
      · subst hij
        obtain ⟨d', hd', he⟩ := Option.map_eq_some_iff.mp hj
        rw [if_pos rfl, Option.filter_eq_some_iff] at he
        obtain ⟨w, rfl, hw⟩ := Option.map_eq_some_iff.mp he.1
        exact .inl ⟨w, List.mem_of_getElem? hd', by rw [← hw]; exact ⟨rfl, rfl⟩⟩
      · exact .inl ⟨d, List.mem_of_getElem? (i := j) (by simpa [hij] using hj), rfl, rfl⟩
  | _ => exact .inl ⟨d, hd, rfl, rfl⟩

end Build

/-! ## Acts in order -/

/-- Where an act of the container stands among the others, if no factory takes over: after which acts, the
newest first, and with what in the ledger. -/
def Act.InOrder (l : Ledger) (earlier : List Act) : Act → Prop
  | .track o => ∀ t ∈ l.build.objects, t.object ≠ o
  | .enter i _ => ∀ names, .enter i names ∉ earlier
  | .park d => ∃ t, l.build.objects[d.owner]? = some t ∧ t.configured = false
  -- a property is assigned while the component is being configured, or when its last placeholder is served
  | .write o _ => ∃ i t, l.build.objects[i]? = some t ∧ t.object = o ∧
      (t.configured = false ∨ l.landing = some i)
  | .configured i => ∃ names, .enter i names ∈ earlier ∧ ∀ name ∈ names, .visit i name ∈ earlier
  | .notify i => ∃ t, l.build.objects[i]? = some t ∧
      t.configured = true ∧ t.pending = 0 ∧ t.notified = false
  | _ => True

namespace Ledger

/-- Each of some acts, the newest first, is in order where it is made. -/
def Orderly (l : Ledger) : List Act → Prop
  | [] => True
  | a :: earlier => a.InOrder (l.replay earlier) earlier ∧ Orderly l earlier

theorem Orderly.moment {l : Ledger} {acts earlier : List Act} (h : Orderly l acts)
    (he : earlier <:+ acts) : Orderly l earlier := by
  induction acts with
  | nil =>
      obtain rfl := List.suffix_nil.mp he
      exact h
  | cons a acts ih =>
      rcases List.suffix_cons_iff.mp he with rfl | he
      · exact h
      · exact ih h.2 he

/-- What the acts so far have come to for those that are told. -/
structure Told (l : Ledger) (acts : List Act) : Prop where
  distinct : (l.build.objects.map (·.object)).Nodup
  told : ∀ i, .notify i ∈ acts ↔ ∃ t : Tracked, l.build.objects[i]? = some t ∧ t.notified = true
  complete : ∀ (i : Nat) (t : Tracked), l.build.objects[i]? = some t → t.notified = true →
    t.configured = true ∧ t.pending = 0
  visited : ∀ (i : Nat) (t : Tracked), l.build.objects[i]? = some t → t.configured = true →
    ∃ names, .enter i names ∈ acts ∧ ∀ name ∈ names, .visit i name ∈ acts

variable {l l' : Ledger} {a : Act} {acts : List Act}

theorem not_start_of_enabled (ha : l.Enabled a) (root : Configuration) : a ≠ .start root := by
  rintro rfl
  exact ha

namespace Told

theorem distinct_after (h : Told l acts) (ha : l.Enabled a) (ho : a.InOrder l acts) :
    ((l.after a).build.objects.map (·.object)).Nodup := by
  rw [build_after]
  refine Build.distinct_apply (not_start_of_enabled ha) (fun o he => ?_) h.distinct
  subst he
  exact ho

theorem told_after (h : Told l acts) (ha : l.Enabled a) (ho : a.InOrder l acts) (i : Nat) :
    .notify i ∈ a :: acts ↔ ∃ t, (l.after a).build.objects[i]? = some t ∧ t.notified = true := by
  have start := not_start_of_enabled ha
  rw [build_after]
  constructor
  · intro hm
    rcases List.mem_cons.mp hm with rfl | hm
    · obtain ⟨t, ht, -⟩ := ho
      exact ⟨_, Build.objects_apply start ht, by simp [Act.mark]⟩
    · obtain ⟨t, ht, hn⟩ := (h.told i).mp hm
      exact ⟨_, Build.objects_apply start ht, Act.mark_notified hn i a⟩
  · rintro ⟨t, ht, hn⟩
    rcases Build.of_objects_apply start ht with ⟨u, hu, rfl⟩ | ⟨o, rfl, -, rfl⟩
    · by_cases hu' : u.notified = true
      · exact List.mem_cons_of_mem _ ((h.told i).mpr ⟨u, hu, hu'⟩)
      · cases a with
        | notify j =>
            by_cases hj : j = i
            · exact hj ▸ List.mem_cons_self
            · exact absurd hn (by simpa [Act.mark, hj] using hu')
        | park d | release j | configured j =>
            simp only [Act.mark] at hn
            split at hn <;> exact absurd hn hu'
        | _ => exact absurd hn hu'
    · exact absurd hn (by simp)

theorem complete_after (h : Told l acts) (ha : l.Enabled a) (ho : a.InOrder l acts) {i : Nat}
    {t : Tracked} (ht : (l.after a).build.objects[i]? = some t) (hn : t.notified = true) :
    t.configured = true ∧ t.pending = 0 := by
  rw [build_after] at ht
  rcases Build.of_objects_apply (not_start_of_enabled ha) ht with ⟨u, hu, rfl⟩ | ⟨o, rfl, -, rfl⟩
  · have before := h.complete i u hu
    cases a with
    | park d =>
        simp only [Act.mark] at hn ⊢
        split at hn
        -- something is parked for a component only while that is being configured
        next hd =>
          obtain ⟨w, hw, hf⟩ := ho
          obtain rfl : w = u := Option.some.inj (hw.symm.trans (hd ▸ hu))
          exact absurd (before hn).1 (by simp [hf])
        next hd => simpa [hd] using before hn
    | notify j =>
        by_cases hj : j = i
        · subst hj
          obtain ⟨w, hw, hc, hp, -⟩ := ho
          obtain rfl : w = u := Option.some.inj (hw.symm.trans hu)
          simp [Act.mark, hc, hp]
        · simp only [Act.mark, hj, if_false] at hn ⊢
          exact before hn
    | configured j | release j =>
        simp only [Act.mark] at hn ⊢
        split at hn <;> simp [before hn, *]
    | _ => exact before hn
  · exact absurd hn (by simp)

theorem visited_after (h : Told l acts) (ha : l.Enabled a) (ho : a.InOrder l acts) {i : Nat}
    {t : Tracked} (ht : (l.after a).build.objects[i]? = some t) (hc : t.configured = true) :
    ∃ names, .enter i names ∈ a :: acts ∧ ∀ name ∈ names, .visit i name ∈ a :: acts := by
  have later : (∃ names, .enter i names ∈ acts ∧ ∀ name ∈ names, .visit i name ∈ acts) →
      ∃ names, .enter i names ∈ a :: acts ∧ ∀ name ∈ names, .visit i name ∈ a :: acts :=
    fun ⟨names, he, hv⟩ => ⟨names, List.mem_cons_of_mem _ he, fun n hn => List.mem_cons_of_mem _ (hv n hn)⟩
  rw [build_after] at ht
  rcases Build.of_objects_apply (not_start_of_enabled ha) ht with ⟨u, hu, rfl⟩ | ⟨o, rfl, -, rfl⟩
  · by_cases hu' : u.configured = true
    · exact later (h.visited i u hu hu')
    · cases a with
      | configured j =>
          by_cases hj : j = i
          · exact later (hj ▸ ho)
          · exact absurd hc (by simpa [Act.mark, hj] using hu')
      | park d | release j | notify j =>
          simp only [Act.mark] at hc
          split at hc <;> exact absurd hc hu'
      | _ => exact absurd hc hu'
  · exact absurd hc (by simp)

/-- An act in order keeps what the acts have come to. -/
theorem after (h : Told l acts) (ha : l.Enabled a) (ho : a.InOrder l acts) :
    Told (l.after a) (a :: acts) :=
  ⟨h.distinct_after ha ho, h.told_after ha ho, fun _ _ => h.complete_after ha ho,
    fun _ _ => h.visited_after ha ho⟩

end Told

/-- Acts in order from a start with nothing tracked. -/
theorem told_of_trace (h : Trace l acts l') (ho : Orderly l acts) (hl : l.build.objects = []) :
    Told l' acts := by
  induction h with
  | refl => exact ⟨by simp [hl], by simp [hl], by simp [hl], by simp [hl]⟩
  | @act m acts a trace ha ih =>
      have order := ho.1
      rw [← trace.eq_replay] at order
      exact (ih ho.2).after ha order

/-- Where each component is tracked once, it has one position. -/
theorem position_unique {objects : List Tracked} (hn : (objects.map (·.object)).Nodup) {i j : Nat}
    {t u : Tracked} (ht : objects[i]? = some t) (hu : objects[j]? = some u) (h : t.object = u.object) :
    i = j := by
  have hi : (objects.map (·.object))[i]? = some t.object := by simp [ht]
  have hj : (objects.map (·.object))[j]? = some t.object := by simp [hu, h]
  exact (List.getElem?_inj (List.getElem?_eq_some_iff.mp hi).1 hn).mp (hi.trans hj.symm)

/-! ## What follows for those that are told -/

section

variable {i : Nat} {earlier later : List Act}

/-- A tracked component is the same one from then on. -/
theorem Trace.object_stays {t : Tracked} (h : Trace l acts l') (ht : l.build.objects[i]? = some t) :
    ∃ u, l'.build.objects[i]? = some u ∧ u.object = t.object := by
  induction h with
  | refl => exact ⟨t, ht, rfl⟩
  | act _ ha ih =>
      obtain ⟨u, hu, ho⟩ := ih
      rw [build_after]
      exact ⟨_, Build.objects_apply (not_start_of_enabled ha) hu, by simp [ho]⟩

/-- The rest of a trace, from a moment on. -/
theorem Trace.rest (h : Trace l (later ++ earlier) l') : Trace (l.replay earlier) later l' := by
  induction later generalizing l' with
  | nil =>
      obtain rfl := h.eq_replay
      exact .refl _
  | cons a later ih =>
      cases h with
      | act h ha => exact .act (ih h) ha

variable (h : Trace l acts l') (ho : Orderly l acts) (hl : l.build.objects = [])
include h ho hl

/-- When a component is told, all its properties have been visited, and nothing is parked for it. -/
theorem notify_after_visits (hl' : Accounted l) (hm : .notify i :: earlier <:+ acts) :
    .notify i ∉ earlier ∧
      (∃ t, (l.replay earlier).build.objects[i]? = some t) ∧
      (∃ names, .enter i names ∈ earlier ∧ ∀ name ∈ names, .visit i name ∈ earlier) ∧
      ∀ d, some d ∈ (l.replay earlier).build.deferred → d.owner ≠ i := by
  have before : earlier <:+ acts := (List.suffix_cons _ _).trans hm
  have trace := h.moment before
  have told := told_of_trace trace (ho.moment before) hl
  obtain ⟨t, ht, hc, hp, hn⟩ := (ho.moment hm).1
  refine ⟨fun hmem => ?_, ⟨t, ht⟩, told.visited i t ht hc, fun d hd howner => ?_⟩
  · obtain ⟨u, hu, hu'⟩ := (told.told i).mp hmem
    obtain rfl : u = t := Option.some.inj (hu.symm.trans ht)
    exact absurd hu' (by simp [hn])
  · have pending := (hl'.trace trace).owners.pending i t ht
    have parked : 0 < (l.replay earlier).build.parkedFor i :=
      List.countP_pos_iff.mpr ⟨some d, hd, by simp [howner]⟩
    omega

/-- Nothing is written to a component once it has been told. -/
theorem not_written_once_told (hl' : Accounted l) (hm : acts = later ++ .notify i :: earlier) {t : Tracked}
    (ht : (l.replay earlier).build.objects[i]? = some t) (name : String) :
    .write t.object name ∉ later := by
  intro hw
  obtain ⟨newer, older, rfl⟩ := List.append_of_mem hw
  have split : acts = (newer ++ [.write t.object name]) ++ (older ++ .notify i :: earlier) := by
    simp [hm]
  have moment : .write t.object name :: (older ++ .notify i :: earlier) <:+ acts :=
    ⟨newer, by simp [split]⟩
  have before := (List.suffix_cons _ _).trans moment
  have trace := h.moment before
  have told := told_of_trace trace (ho.moment before) hl
  obtain ⟨u, hu, hn⟩ := (told.told i).mp (by simp)
  obtain ⟨hc, hp⟩ := told.complete i u hu hn
  -- it is still the same component, and the only one at its position
  have rest : Trace (l.replay earlier) (older ++ [.notify i]) (l.replay (older ++ .notify i :: earlier)) :=
    Trace.rest (by simpa using trace)
  obtain ⟨u', hu', same⟩ := rest.object_stays ht
  obtain rfl : u' = u := Option.some.inj (hu'.symm.trans hu)
  obtain ⟨j, w, hj, hobject, order⟩ := (ho.moment moment).1
  obtain rfl : j = i := position_unique told.distinct hj hu (hobject.trans same.symm)
  obtain rfl : w = u' := Option.some.inj (hj.symm.trans hu)
  rcases order with hf | hland
  · exact absurd hc (by simp [hf])
  · have pending := (hl'.trace trace).owners.pending j w hj
    rw [if_pos hland] at pending
    omega

end

end Ledger

end ObjectGraph
