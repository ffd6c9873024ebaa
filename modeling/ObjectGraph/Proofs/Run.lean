import ObjectGraph.Build.Container

/-!
# `Proofs.Run` — what a run leads to

What a run leads to is said by `After`: what holds of its result and of the session after it, and what
holds of the session if it runs out of steps. `After` goes along the run from the front: a row of two runs
leads to something if the first leads to where the second leads to it.

Many facts about the container have one shape: whatever a run does, it leads from a session to one that
is related to it, where the relation holds along any number of steps and does not care for events and
files. An operation may begin with something to see to, and leave something else to see to: its *burdens*.
Relations with burdens are *protocols*, and those without are *courses*. Both say apart what holds where a
run is cut off because it has no steps left, since what it has begun then stays undone. A run that keeps to
a course is `Within` it, and so is every run that is made of such runs.

Contents:
* `Session.acted`; `run_bind`, the laws of rows of runs;
* `After`, its rules for rows of runs and for each primitive; `succeeds`;
* `Ends` and its rules; `Rowwise`, properties of rows of runs;
* `Quiet`, `Yields`, runs that read; `GoesOn`; `Protocol`, `Protocol.Carries` and its closure lemmas; `Course`, `Within`.
-/

namespace ObjectGraph

/-- The session after an act. -/
abbrev Session.acted (s : Session) (a : Act) : Session :=
  { s with build := s.build.apply a, acts := a :: s.acts }

namespace Run

variable {α β : Type}

/-! ## Rows of runs -/

/-- The second run of a row starts where the first ends, if it does. -/
theorem run_bind (x : Run α) (f : α → Run β) (s : Session) :
    (x >>= f).run s = match x.run s with
      | (some a, t) => (f a).run t
      | (none, t) => (none, t) := rfl

instance : LawfulMonad Run :=
  LawfulMonad.mk' Run
    (fun x => by
      refine congrArg Run.mk (funext fun s => ?_)
      rcases x.run s with ⟨_ | a, t⟩ <;> rfl)
    (fun _ _ => rfl)
    (fun x f g => by
      refine congrArg Run.mk (funext fun s => ?_)
      rw [run_bind]
      rcases x.run s with ⟨_ | a, t⟩ <;> rfl)

/-- From one session, runs that do the same begin rows that do the same. -/
theorem run_bind_congr_left {x y : Run α} {s : Session} (h : x.run s = y.run s) (f : α → Run β) :
    (x >>= f).run s = (y >>= f).run s := by
  rw [run_bind, run_bind, h]

/-! ## Going along a run -/

/-- What holds of the result of a run and the session after it, and of the session if it runs out of
steps. -/
def After (x : Run α) (s : Session) (done : α → Session → Prop) (cut : Session → Prop) : Prop :=
  match x.run s with
  | (some a, t) => done a t
  | (none, t) => cut t

variable {done : α → Session → Prop} {cut : Session → Prop} {s : Session}

@[simp] theorem after_pure (a : α) : After (pure a) s done cut ↔ done a s := Iff.rfl

/-- A row of two runs leads to something if the first leads to where the second leads to it. -/
@[simp] theorem after_bind (x : Run β) (f : β → Run α) :
    After (x >>= f) s done cut ↔ After x s (fun b t => After (f b) t done cut) cut := by
  unfold After
  rw [run_bind]
  rcases x.run s with ⟨_ | b, t⟩ <;> rfl

theorem After.mono {x : Run α} {done' : α → Session → Prop} {cut' : Session → Prop}
    (h : After x s done cut) (hd : ∀ a t, done a t → done' a t) (hc : ∀ t, cut t → cut' t) :
    After x s done' cut' := by
  unfold After at h ⊢
  rcases hx : x.run s with ⟨_ | a, t⟩ <;> rw [hx] at h
  · exact hc t h
  · exact hd a t h

/-- Two things that hold after a run hold after it together. -/
theorem After.and {x : Run α} {done' : α → Session → Prop} {cut' : Session → Prop}
    (h : After x s done cut) (h' : After x s done' cut') :
    After x s (fun a t => done a t ∧ done' a t) fun t => cut t ∧ cut' t := by
  unfold After at h h' ⊢
  rcases hx : x.run s with ⟨_ | a, t⟩ <;> rw [hx] at h h'
  · exact ⟨h, h'⟩
  · exact ⟨h, h'⟩

theorem After.of_forall (x : Run α) (s : Session) (hd : ∀ a t, done a t) (hc : ∀ t, cut t) :
    After x s done cut := by
  unfold After
  rcases x.run s with ⟨_ | a, t⟩
  · exact hc t
  · exact hd a t

theorem ended_iff {x : Run α} {a : α} {t : Session} : x s = some (a, t) ↔ x.run s = (some a, t) := by
  show ended? x s = _ ↔ _
  unfold ended?
  rcases x.run s with ⟨_ | b, u⟩ <;> simp

/-- From one session, a run may be followed by whatever does the same from where it ends. -/
theorem run_bind_congr_right {x : Run α} {f g : α → Run β}
    (h : ∀ a t, x s = some (a, t) → (f a).run t = (g a).run t) : (x >>= f).run s = (x >>= g).run s := by
  rw [run_bind, run_bind]
  rcases hx : x.run s with ⟨_ | a, t⟩
  · rfl
  · exact h a t (ended_iff.mpr hx)

/-- What a run leads to holds of its result, if it has one, and of the session that it leaves. -/
theorem After.cases {x : Run α} (h : After x s done cut) :
    (∃ a, (x.run s).1 = some a ∧ done a (x.run s).2) ∨ (x.run s).1 = none ∧ cut (x.run s).2 := by
  unfold After at h
  rcases hx : x.run s with ⟨_ | a, t⟩ <;> rw [hx] at h
  · exact .inr ⟨rfl, h⟩
  · exact .inl ⟨a, rfl, h⟩

/-- What holds after a run holds of how it ends. -/
theorem After.of_ended {x : Run α} {a : α} {t : Session} (h : After x s done cut)
    (hx : x s = some (a, t)) : done a t := by
  rw [ended_iff] at hx
  unfold After at h
  rw [hx] at h
  exact h

/-- What a run leads to is where it ends. -/
theorem After.ended {x : Run α} (h : After x s done cut) :
    After x s (fun a t => x s = some (a, t) ∧ done a t) cut := by
  unfold After at h ⊢
  rcases hx : x.run s with ⟨_ | a, t⟩ <;> rw [hx] at h
  · exact h
  · exact ⟨ended_iff.mpr hx, h⟩

/-- A run that cannot run out of steps ends. -/
theorem After.ends {x : Run α} (h : After x s done cut) (hc : ∀ t, ¬ cut t) :
    ∃ a t, x s = some (a, t) ∧ done a t := by
  unfold After at h
  rcases hx : x.run s with ⟨_ | a, t⟩ <;> rw [hx] at h
  · exact absurd h (hc t)
  · exact ⟨a, t, ended_iff.mpr hx, h⟩

/-- A result that is given at once ends where it starts. -/
theorem ended_pure {a b : α} {t : Session} : (pure a : Run α) s = some (b, t) ↔ b = a ∧ t = s := by
  rw [ended_iff]
  simp only [Pure.pure, Prod.mk.injEq, Option.some.injEq, eq_comm]

/-- A row of two runs that ends: the first ends, and then the second. -/
theorem ended_bind {x : Run β} {f : β → Run α} {a : α} {t : Session} (h : (x >>= f) s = some (a, t)) :
    ∃ b u, x s = some (b, u) ∧ f b u = some (a, t) := by
  rw [ended_iff] at h
  rw [run_bind] at h
  rcases hx : x.run s with ⟨_ | b, u⟩ <;> rw [hx] at h
  · exact absurd h (by simp)
  · exact ⟨b, u, ended_iff.mpr hx, ended_iff.mpr h⟩

/-- A row of two runs ends as its second run does from where the first ends. -/
theorem ended_row {x : Run β} {f : β → Run α} {a : α} {b : β} {t u : Session} (hx : x s = some (b, u))
    (hf : f b u = some (a, t)) : (x >>= f) s = some (a, t) := by
  rw [ended_iff, run_bind, ended_iff.mp hx]
  exact ended_iff.mp hf

/-- A run ends, with a result and a session as they are to be. -/
def succeeds {ε : Type} (x : Run (Except ε α)) (s : Session) (expected : α → Session → Bool) : Bool :=
  match x.run s with
  | (some (.ok a), t) => expected a t
  | _ => false

theorem of_succeeds {ε : Type} {x : Run (Except ε α)} {expected : α → Session → Bool}
    (h : succeeds x s expected = true) : ∃ a t, x s = some (.ok a, t) ∧ expected a t = true := by
  unfold succeeds at h
  split at h
  next a t hx => exact ⟨a, t, ended_iff.mpr hx, h⟩
  next => exact absurd h Bool.false_ne_true

/-! ### Primitives -/

@[simp] theorem after_exhausted : After (exhausted : Run α) s done cut ↔ cut s := Iff.rfl

@[simp] theorem after_get {done : Session → Session → Prop} :
    After (get : Run Session) s done cut ↔ done s s := Iff.rfl

@[simp] theorem after_set {done : PUnit → Session → Prop} (t : Session) :
    After (set t : Run PUnit) s done cut ↔ done ⟨⟩ t := Iff.rfl

@[simp] theorem after_heap {done : Heap → Session → Prop} :
    After heap s done cut ↔ done s.heap s := Iff.rfl

@[simp] theorem after_build {done : Build → Session → Prop} :
    After build s done cut ↔ done s.build s := Iff.rfl

@[simp] theorem after_report {done : Unit → Session → Prop} (l : Log.Level) (target message : String)
    (fields : List (String × Log.Field)) :
    After (report l target message fields) s done cut
      ↔ done () { s with events := ⟨l, target, some message, fields⟩ :: s.events } := Iff.rfl

@[simp] theorem after_act {done : Unit → Session → Prop} (a : Act) :
    After (act a) s done cut
      ↔ done () { s with build := s.build.apply a, acts := a :: s.acts } := Iff.rfl

@[simp] theorem after_setProperty {done : Bool → Session → Prop} (o : ObjectId) (name : String)
    (v : Value) :
    After (setProperty o name v) s done cut
      ↔ done (s.heap.set o name v).1 { s with heap := (s.heap.set o name v).2 } := Iff.rfl

@[simp] theorem after_allocate {done : ObjectId → Session → Prop} (c : Component) :
    After (allocate c) s done cut
      ↔ done (s.heap.allocate c).1 { s with heap := (s.heap.allocate c).2 } := Iff.rfl

@[simp] theorem after_finish {done : Unit → Session → Prop} (o : ObjectId) :
    After (finish o) s done cut ↔ done () { s with heap := s.heap.finish o } := Iff.rfl

@[simp] theorem after_openFile {done : Except Files.Failure (List UInt8) → Session → Prop} (host : Host)
    (path : String) :
    After (openFile host path) s done cut
      ↔ done (host.files path) { s with opened := path :: s.opened } := Iff.rfl

/-! ## Runs that end -/

section

variable {x : Run α} {good good' : α → Prop}

/-- Wherever the run starts, it ends, with a result as it is to be. -/
def Ends (x : Run α) (good : α → Prop) : Prop := ∀ s, After x s (fun a _ => good a) fun _ => False

theorem Ends.pure {a : α} (h : good a) : Ends (Pure.pure a) good := fun _ => h

theorem Ends.bind {f : α → Run β} {fine : β → Prop} (hx : Ends x good)
    (hf : ∀ a, good a → Ends (f a) fine) : Ends (x >>= f) fine := by
  intro s
  rw [after_bind]
  exact (hx s).mono (fun a t ha => hf a ha t) fun _ => id

theorem Ends.mono (hx : Ends x good) (h : ∀ a, good a → good' a) : Ends x good' :=
  fun s => (hx s).mono (fun a _ => h a) fun _ => id

theorem Ends.heap : Ends heap fun _ => True := fun _ => trivial

theorem Ends.report (l : Log.Level) (target message : String) (fields : List (String × Log.Field)) :
    Ends (report l target message fields) fun _ => True := fun _ => trivial

end

/-! ## Properties of rows of runs -/

/-- A property that a row of two runs has if both have it, and that runs have which only look around, report
something or ask for a file. -/
structure Rowwise (P : (α : Type) → Run α → Prop) : Prop where
  pure : ∀ {α : Type} (a : α), P α (Pure.pure a)
  bind : ∀ {α β : Type} {x : Run α} {f : α → Run β}, P α x → (∀ a, P β (f a)) → P β (x >>= f)
  heap : P Heap heap
  report : ∀ l target message fields, P Unit (report l target message fields)
  openFile : ∀ host path, P (Except Files.Failure (List UInt8)) (openFile host path)

/-- Ending is such a property. -/
theorem Ends.rowwise : Rowwise fun _ x => Ends x fun _ => True where
  pure _ := .pure trivial
  bind hx hf := hx.bind fun a _ => hf a
  heap := .heap
  report := .report
  openFile _ _ _ := trivial

/-! ## Protocols and courses -/

/-- Nothing has happened but events and files that were asked for. -/
structure Quiet (s t : Session) : Prop where
  heap : t.heap = s.heap
  build : t.build = s.build
  acts : t.acts = s.acts

theorem Quiet.refl (s : Session) : Quiet s s := ⟨rfl, rfl, rfl⟩

/-- A run leads to a value, and nothing happens but events. -/
structure Yields (x : Run α) (s : Session) (a : α) : Prop where
  leads : After x s (fun r t => Quiet s t ∧ r = a) fun _ => False

theorem Quiet.trans {s t u : Session} (h : Quiet s t) (h' : Quiet t u) : Quiet s u :=
  ⟨h'.heap.trans h.heap, h'.build.trans h.build, h'.acts.trans h.acts⟩

namespace Yields

variable {s : Session} {a : α} {b : β}

theorem pure (a : α) (s : Session) : Yields (Pure.pure a) s a := ⟨⟨.refl s, rfl⟩⟩

theorem bind {x : Run α} {f : α → Run β} (hx : Yields x s a) (hf : ∀ t, Quiet s t → Yields (f a) t b) :
    Yields (x >>= f) s b := by
  refine ⟨(after_bind x f).mpr (hx.leads.mono (fun r t hr => ?_) fun _ => id)⟩
  obtain ⟨hq, rfl⟩ := hr
  exact (hf t hq).leads.mono (fun r' u hr' => ⟨hq.trans hr'.1, hr'.2⟩) fun _ => id

theorem report (l : Log.Level) (target message : String) (fields : List (String × Log.Field)) (s : Session) :
    Yields (Run.report l target message fields) s () := ⟨⟨⟨rfl, rfl, rfl⟩, rfl⟩⟩

theorem heap (s : Session) : Yields Run.heap s s.heap := ⟨⟨.refl s, rfl⟩⟩

theorem build (s : Session) : Yields Run.build s s.build := ⟨⟨.refl s, rfl⟩⟩

end Yields

/-- The container may have gone on with the pass at hand. -/
def GoesOn (s t : Session) : Prop := ∃ acts, t.acts = acts ++ s.acts ∧ ∀ root, .start root ∉ acts

theorem GoesOn.of_eq {s t : Session} (h : t.acts = s.acts) : GoesOn s t := ⟨[], h, by simp⟩

theorem GoesOn.refl (s : Session) : GoesOn s s := .of_eq rfl

theorem GoesOn.trans {s t u : Session} (h : GoesOn s t) (h' : GoesOn t u) : GoesOn s u := by
  obtain ⟨acts, ht, hn⟩ := h
  obtain ⟨more, hu, hm⟩ := h'
  exact ⟨more ++ acts, by rw [hu, ht, List.append_assoc], by simp [hn, hm]⟩

/-- One more act. -/
theorem GoesOn.act {s t : Session} {a : Act} (ht : t.acts = a :: s.acts) (ha : ∀ root, a ≠ .start root) :
    GoesOn s t :=
  ⟨[a], ht, fun root h => ha root (List.mem_singleton.mp h).symm⟩

/-- Relations between the sessions before and after a run that turns one burden into another, which hold
along any number of steps and do not care for events and files. -/
structure Protocol (B : Type) where
  /-- The run ends, and has turned the first burden into the second. -/
  ends : B → B → Session → Session → Prop
  /-- The run has no steps left, after it has begun with a burden. -/
  cuts : B → Session → Session → Prop
  quiet : ∀ {b : B} {s t : Session}, Quiet s t → ends b b s t
  trans : ∀ {b c d : B} {s t u : Session}, ends b c s t → ends c d t u → ends b d s u
  stop : ∀ (b : B) (s : Session), cuts b s s
  trans_cut : ∀ {b c : B} {s t u : Session}, ends b c s t → cuts c t u → cuts b s u

/-- Relations between the sessions before and after a run. -/
abbrev Course := Protocol Unit

namespace Protocol

variable {B : Type} {P : Protocol B} {b c d : B}

theorem refl (P : Protocol B) (b : B) (s : Session) : P.ends b b s s := P.quiet (.refl s)

/-- The course of runs that leave a burden as it is. -/
def keeping (P : Protocol B) (b : B) : Course where
  ends _ _ := P.ends b b
  cuts _ := P.cuts b
  quiet := P.quiet
  trans := P.trans
  stop _ := P.stop b
  trans_cut := P.trans_cut

/-- A course from sessions of which something holds that holds on. -/
def given (R : Course) (H : Session → Prop) (hH : ∀ {s t : Session}, H s → R.ends () () s t → H t) :
    Course where
  ends _ _ s t := H s → R.ends () () s t
  cuts _ s t := H s → R.cuts () s t
  quiet h _ := R.quiet h
  trans h₁ h₂ hs := R.trans (h₁ hs) (h₂ (hH hs (h₁ hs)))
  stop _ s _ := R.stop () s
  trans_cut h₁ h₂ hs := R.trans_cut (h₁ hs) (h₂ (hH hs (h₁ hs)))

/-- Wherever the run starts, it turns one burden into another. -/
def Carries (P : Protocol B) (b c : B) (x : Run α) : Prop :=
  ∀ s, After x s (fun _ => P.ends b c s) (P.cuts b s)

/-- From where a burden has been turned into another, a run goes on with that. -/
theorem after {x : Run α} {s t : Session} (h : P.ends b c s t)
    (hx : After x t (fun _ => P.ends c d t) (P.cuts c t)) :
    After x t (fun _ => P.ends b d s) (P.cuts b s) :=
  hx.mono (fun _ _ => P.trans h) fun _ => P.trans_cut h

namespace Carries

theorem pure (a : α) : P.Carries b b (Pure.pure a : Run α) := fun s => P.refl b s

theorem bind {x : Run α} {f : α → Run β} (hx : P.Carries b c x) (hf : ∀ a, P.Carries c d (f a)) :
    P.Carries b d (x >>= f) := by
  intro s
  rw [after_bind]
  exact (hx s).mono (fun a t h => P.after h (hf a t)) fun _ => id

theorem heap : P.Carries b b heap := fun s => P.refl b s

theorem build : P.Carries b b build := fun s => P.refl b s

theorem report (l : Log.Level) (target message : String) (fields : List (String × Log.Field)) :
    P.Carries b b (report l target message fields) :=
  fun _ => P.quiet ⟨rfl, rfl, rfl⟩

theorem openFile (host : Host) (path : String) : P.Carries b b (openFile host path) :=
  fun _ => P.quiet ⟨rfl, rfl, rfl⟩

/-- A run that has no steps keeps to every protocol. -/
theorem exhausted : P.Carries b c (exhausted : Run α) := fun s => P.stop b s

/-- What keeps to the course of runs that leave a burden leaves it. -/
theorem of_keeping {x : Run α} (hx : (P.keeping b).Carries () () x) : P.Carries b b x := hx

end Carries

end Protocol

/-- Whatever the run does, it leads to a session related to the first. -/
abbrev Within (R : Course) (x : Run α) : Prop := R.Carries () () x

/-- Keeping to a course is a property of rows of runs. -/
theorem Within.rowwise (R : Course) : Rowwise fun _ x => Within R x :=
  ⟨.pure, .bind, .heap, .report, .openFile⟩

/-- What keeps to a course where something holds keeps to the course from there. -/
theorem Within.given {R : Course} {x : Run α} {H : Session → Prop}
    (hH : ∀ {s t : Session}, H s → R.ends () () s t → H t)
    (hx : ∀ s, H s → After x s (fun _ => R.ends () () s) (R.cuts () s)) :
    Within (R.given H hH) x := by
  intro s
  by_cases hs : H s
  · exact (hx s hs).mono (fun _ _ h _ => h) fun _ h _ => h
  · exact .of_forall x s (fun _ _ h => absurd h hs) fun _ h => absurd h hs

end Run

end ObjectGraph
