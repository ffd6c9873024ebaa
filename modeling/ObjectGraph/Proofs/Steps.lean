import ObjectGraph.Proofs.Regular

/-!
# `Proofs.Steps` — the steps that a container takes

Whatever a container does, it takes steps of a few kinds. It does something that leaves what it knows as it is; it
does one of the acts that have nothing to do with parked assignments but that they may be parked; or it fills a place
of a parked assignment. If that was the last place, the assignment is made, by the same step, and its owner waits for
it no more.

The steps say which places are filled, so what becomes of a parked assignment can be told from any row of steps
(`Steps`), whatever else is done in between. All operations of a container take steps (`machine_steps`).

Contents:
* `Act.Plain`; `Filling`, `Step`, `Steps`; `perform`;
* `steps`, a course; `assign_leads`, `release_leads`; `fillProperty_after`;
* `regular_steps`, `machine_steps`.
-/

namespace ObjectGraph

open Run (After Course Within)

/-- The act neither starts a pass nor touches an assignment that is parked already. -/
def Act.Plain : Act → Prop
  | .start _ => False
  | .fill _ _ _ => False
  | .release _ => False
  | _ => True

/-- A place of a parked assignment is filled. -/
structure Filling where
  slot : Nat
  place : List Place
  /-- With what; nothing counts as null. -/
  result : Option Value
  /-- The assignment that is made, if this was the last place. -/
  made : Option Deferred

namespace Container

/-- Makes an assignment that was parked, unless its value has come to null. -/
def perform (k : Container) (o : ObjectId) (d : Deferred) : Run Unit :=
  if d.value.isNull then
    Run.report .debug target "deferred reference resolved to nothing" [("property", .shown d.property.name)]
  else assign k.host o d.property d.value d.handler

/-- One step of a container, and the place that it fills. -/
inductive Step (k : Container) : Option Filling → Session → Session → Prop
  | quiet {s t : Session} (same : t.build = s.build) : Step k none s t
  | act {s : Session} (a : Act) (plain : a.Plain) : Step k none s (s.acted a)
  | wait {s : Session} {j : Nat} {d : Deferred} (place : List Place) (v : Option Value)
      (parked : s.build.deferred[j]? = some (some d))
      (left : 1 < d.outstanding ∨ s.build.objects[d.owner]? = none) :
      Step k (some ⟨j, place, v, none⟩) s (s.acted (.fill j place (v.getD .null)))
  | make {s t u : Session} {j : Nat} {d : Deferred} {r : Tracked} (place : List Place) (v : Option Value)
      (parked : s.build.deferred[j]? = some (some d)) (last : d.outstanding ≤ 1)
      (owner : s.build.objects[d.owner]? = some r)
      (performed : k.perform r.object (d.filled place (v.getD .null)) (s.acted (.fill j place (v.getD .null)))
        = some ((), t))
      (released : release d.owner t = some ((), u)) :
      Step k (some ⟨j, place, v, some (d.filled place (v.getD .null))⟩) s u

/-- A row of steps, and the places that are filled on the way. -/
inductive Steps (k : Container) : List Filling → Session → Session → Prop
  | refl (s : Session) : Steps k [] s s
  | tail {fs : List Filling} {f : Option Filling} {s t u : Session} (steps : Steps k fs s t) (step : Step k f t u) :
      Steps k (fs ++ f.toList) s u

variable {k : Container}

theorem Steps.one {f : Option Filling} {s t : Session} (step : k.Step f s t) : k.Steps f.toList s t :=
  .tail (.refl s) step

theorem Steps.trans {fs gs : List Filling} {s t u : Session} (first : k.Steps fs s t) (second : k.Steps gs t u) :
    k.Steps (fs ++ gs) s u := by
  induction second with
  | refl => rwa [List.append_nil]
  | tail _ step ih =>
      rw [← List.append_assoc]
      exact .tail (ih first) step

/-- The course of what a container does in steps. -/
def steps (k : Container) : Course where
  ends _ _ s t := ∃ fs, k.Steps fs s t
  cuts _ _ _ := True
  quiet h := ⟨_, .one (.quiet h.build)⟩
  trans := by
    rintro _ _ _ s t u ⟨fs, first⟩ ⟨gs, second⟩
    exact ⟨fs ++ gs, first.trans second⟩
  stop _ _ := trivial
  trans_cut _ _ := trivial

theorem act_steps {a : Act} (plain : a.Plain) : Within k.steps (Run.act a) :=
  fun _ => ⟨_, .one (.act a plain)⟩

/-! ## Assignments -/

/-- An assignment changes components only. -/
theorem assign_leads (host : Host) (o : ObjectId) (p : Property) (v : Value) (handler : Handler) (s : Session) :
    After (assign host o p v handler) s (fun _ t => t.build = s.build) fun _ => False := by
  refine (assign_cases host o p v handler s).mono (fun _ t h => ?_) fun _ => id
  rcases h with quiet | ⟨build, -⟩
  · exact quiet.build
  · exact build

theorem perform_leads (k : Container) (o : ObjectId) (d : Deferred) (s : Session) :
    After (k.perform o d) s (fun _ t => t.build = s.build) fun _ => False := by
  unfold perform
  split
  · rfl
  · exact assign_leads _ _ _ _ _ _

theorem perform_bind (k : Container) (o : ObjectId) (d : Deferred) (f : Unit → Run Unit) :
    k.perform o d >>= f =
      if d.value.isNull then
        Run.report .debug target "deferred reference resolved to nothing" [("property", .shown d.property.name)] >>= f
      else assign k.host o d.property d.value d.handler >>= f := by
  unfold perform
  split
  · rfl
  · rfl

/-- A component may be told that it is configured. -/
theorem notifyIfReady_leads (i : Nat) (s : Session) :
    After (notifyIfReady i) s (fun _ t => t.build = s.build ∨ t.build = s.build.apply (.notify i))
      fun _ => False := by
  refine (notifyIfReady_cases i s).mono (fun _ t h => ?_) fun _ => id
  obtain ⟨rfl, -⟩ | ⟨w, -, -, build, -⟩ := h
  · exact .inl rfl
  · exact .inr build

theorem notifyIfReady_steps (i : Nat) : Within k.steps (notifyIfReady i) := by
  intro s
  refine (notifyIfReady_leads i s).mono (fun _ t leads => ?_) fun _ => False.elim
  obtain same | told := leads
  · exact ⟨_, .one (.quiet same)⟩
  · exact ⟨_, (Steps.one (.act (.notify i) trivial)).trans (.one (.quiet told))⟩

theorem release_leads (i : Nat) (s : Session) :
    After (release i) s
      (fun _ t => t.build = s.build.apply (.release i) ∨ t.build = (s.build.apply (.release i)).apply (.notify i))
      fun _ => False :=
  notifyIfReady_leads i (s.acted (.release i))

theorem markConfigured_steps (i : Nat) : Within k.steps (markConfigured i) :=
  .bind (act_steps trivial) fun _ => notifyIfReady_steps i

theorem track_steps (o : ObjectId) : Within k.steps (track o) := by
  refine .bind .build fun b => ?_
  split
  · exact .pure _
  · exact .bind (act_steps trivial) fun _ => .pure _

/-- Filling a place of a parked assignment is one step. Where nothing is parked any more, nothing is filled. -/
theorem fillProperty_after (k : Container) (j : Nat) (place : List Place) (v : Option Value) (s : Session) :
    After (k.fillProperty j place v) s
      (fun _ t => (s.build.deferred[j]?.join = none ∧ t = s) ∨
        ∃ d made, s.build.deferred[j]? = some (some d) ∧ k.Step (some ⟨j, place, v, made⟩) s t)
      fun _ => False := by
  unfold fillProperty
  rw [Run.after_bind, Run.after_build]
  split
  next none => exact .inl ⟨none, rfl⟩
  next d held =>
    have parked : s.build.deferred[j]? = some (some d) := Option.join_eq_some_iff.mp held
    dsimp only
    rw [Run.after_bind, Run.after_act]
    split
    next more => exact .inr ⟨d, none, parked, .wait place v parked (.inl (Nat.lt_of_sub_pos more))⟩
    next last =>
      rw [Run.after_bind, Run.after_build]
      split
      next owner => exact .inr ⟨d, none, parked, .wait place v parked (.inr owner)⟩
      next r owner =>
        have full : d.outstanding ≤ 1 := Nat.le_of_sub_eq_zero (Nat.eq_zero_of_not_pos last)
        refine (congrArg (After · _ _ _) (perform_bind k r.object (d.filled place (v.getD .null)) _)).mp ?_
        rw [Run.after_bind]
        refine (perform_leads k _ _ _).ended.mono (fun _ t made => ?_) fun _ => id
        refine (release_leads d.owner t).ended.mono (fun _ u done => ?_) fun _ => id
        exact .inr ⟨d, _, parked, .make place v parked full owner made.1 done.1⟩

theorem fillProperty_steps (k : Container) (j : Nat) (place : List Place) (v : Option Value) :
    Within k.steps (k.fillProperty j place v) := by
  intro s
  refine (fillProperty_after k j place v s).mono (fun _ t h => ?_) fun _ => False.elim
  obtain ⟨-, rfl⟩ | ⟨d, made, -, step⟩ := h
  · exact k.steps.refl () t
  · exact ⟨_, .one step⟩

theorem construct_steps (name context : String) : Within k.steps (k.construct name context) := by
  unfold construct
  split
  · exact .pure _
  · exact fun _ => ⟨_, .one (.quiet rfl)⟩

/-- What the operations of a container come down to are steps. -/
theorem regular_steps (k : Container) : k.Regular k.steps where
  setProperty _ _ _ _ := ⟨_, .one (.quiet rfl)⟩
  allocate _ _ := ⟨_, .one (.quiet rfl)⟩
  construct := construct_steps
  act {a} free := by
    refine act_steps ?_
    cases a <;> first | exact trivial | exact free.elim
  track := track_steps
  markConfigured := markConfigured_steps
  fillProperty := fillProperty_steps k

/-- Whatever the container's machine does, it does in steps. -/
theorem machine_steps (k : Container) (n : Nat) : k.Obeys k.steps (k.machine n) :=
  machine_obeys (regular_steps k) n

end Container

end ObjectGraph
