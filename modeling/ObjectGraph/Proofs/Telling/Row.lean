import ObjectGraph.Proofs.Regular
import ObjectGraph.Proofs.Telling.Upkeep

/-!
# `Proofs.Telling.Row` — who is told when, whatever factories do

Where factories take over, a component may be built of parts that nobody configures, and may be configured further
after it has been told. So a pass is not tidy any more; but whatever a container does, it does one thing after the other
(`Row`), and each is of one of three kinds (`Turn`): nothing is noted and nobody is told; an act is noted that tells
nobody; or a component is told, which all its properties have been visited of, which waits for nothing and which has
not been told. From this follows how often a component is told between any two moments (`Row.times`).

Between operations everybody who can be told has been (`informing`), since the two acts after which there may be
somebody new are followed by looking at that component.

Contents:
* `Heap.Silent`, `TypeRegistry.MakesSilently`: nobody who exists is told;
* `Turn`, `Row`, its laws, `Row.split`, `Row.split_notify`;
* `Tracked.Later`, `Row.stays`; `Row.told`, `Row.notified`, `Row.notify_once`; `Row.times`;
* `informing`, a course; `regular_informing`, `machine_informs`.
-/

namespace ObjectGraph

open Run (After Course Within)

/-! ## Telling nobody -/

namespace Heap

variable {h : Heap}

/-- The components of one heap are in another, and none of them has been told anything on the way. -/
structure Silent (h h' : Heap) : Prop where
  length_le : h.length ≤ h'.length
  times : ∀ o < h.length, h'.times o = h.times o

theorem Silent.refl (h : Heap) : h.Silent h := ⟨le_rfl, fun _ _ => rfl⟩

theorem silent_set (h : Heap) (o : ObjectId) (n : String) (v : Value) : h.Silent (h.set o n v).2 :=
  ⟨(h.length_set o n v).ge, fun p _ => h.times_set o n v p⟩

theorem silent_allocate (h : Heap) (c : Component) : h.Silent (h.allocate c).2 := by
  refine ⟨?_, fun o ho => ?_⟩
  · simp [allocate]
  · unfold times
    rw [getElem?_allocate_of_lt ho c]

theorem Fresh.silent {made : ObjectId × Heap} (hf : h.Fresh made) : h.Silent made.2 :=
  ⟨hf.recent.trans hf.present.le, fun o _ => hf.times_eq o⟩

end Heap

/-- Constructing an instance of a class tells nobody who exists. -/
def TypeRegistry.MakesSilently (types : TypeRegistry) : Prop :=
  ∀ name make, types.constructor? name = some make → ∀ h : Heap, h.Silent (make h).2

theorem TypeRegistry.MakesFresh.silently {types : TypeRegistry} (ht : types.MakesFresh) : types.MakesSilently :=
  fun name make hm h => (ht name make hm h).silent

/-! ## One thing after the other -/

/-- The session in which a component has just been told. -/
def Session.tell (s : Session) (i : Nat) (t : Tracked) : Session :=
  { s.acted (.notify i) with heap := s.heap.finish t.object }

/-- One thing that a container does, and the act by which it is noted. -/
inductive Turn : Option Act → Session → Session → Prop
  | still {s t : Session} (build : t.build = s.build) (acts : t.acts = s.acts) (silent : s.heap.Silent t.heap) :
      Turn none s t
  | act {s : Session} {a : Act} (start : ∀ root, a ≠ .start root) (notify : ∀ i, a ≠ .notify i)
      (track : ∀ o, a = .track o → s.Untracked o) : Turn (some a) s (s.acted a)
  | tell {s : Session} {i : Nat} {w : Tracked} (tracked : s.build.objects[i]? = some w) (ready : w.Ready) :
      Turn (some (.notify i)) s (s.tell i w)

/-- What a container does from one session to another, and its acts, the newest first. -/
inductive Row : Session → List Act → Session → Prop
  | refl (s : Session) : Row s [] s
  | tail {s t u : Session} {acts : List Act} {a : Option Act} (row : Row s acts t) (turn : Turn a t u) :
      Row s (a.toList ++ acts) u

/-- How often a component has been told, by what the container knows. -/
def Build.toldOf (b : Build) (o : ObjectId) : Nat := b.objects.countP fun t => t.object == o && t.notified

/-- A tracked component and the same one later on: what has been said of it still holds. -/
structure Tracked.Later (t t' : Tracked) : Prop where
  object : t'.object = t.object
  configured : t.configured = true → t'.configured = true
  notified : t.notified = true → t'.notified = true

theorem Tracked.Later.refl (t : Tracked) : t.Later t := ⟨rfl, id, id⟩

theorem Tracked.Later.trans {t t' t'' : Tracked} (h : t.Later t') (h' : t'.Later t'') : t.Later t'' :=
  ⟨h'.object.trans h.object, h'.configured ∘ h.configured, h'.notified ∘ h.notified⟩

variable {s t u : Session} {acts more later earlier : List Act} {a : Option Act} {i : Nat} {w : Tracked}

namespace Turn

theorem acts_eq (h : Turn a s t) : t.acts = a.toList ++ s.acts := by
  cases h with
  | still _ acts _ => exact acts
  | act _ _ _ => rfl
  | tell _ _ => rfl

theorem build_eq (h : Turn a s t) : t.build = a.elim s.build s.build.apply := by
  cases h with
  | still build _ _ => exact build
  | act _ _ _ => rfl
  | tell _ _ => rfl

theorem not_start (h : Turn a s t) (root : Configuration) : a ≠ some (.start root) := by
  cases h with
  | still _ _ _ => simp
  | act start _ _ => exact fun he => start root (Option.some.inj he)
  | tell _ _ => simp

/-- Each component is tracked once. -/
theorem distinct (h : Turn a s t) (hs : (s.build.objects.map (·.object)).Nodup) :
    (t.build.objects.map (·.object)).Nodup := by
  cases h with
  | still build _ _ => rwa [build]
  | act start _ track => exact Build.distinct_apply start track hs
  | tell _ _ => exact Build.distinct_apply (by simp) (by simp) hs

/-- What is tracked stays tracked, and waits for no more unless something is parked for it. -/
theorem stays (h : Turn a s t) (hw : s.build.objects[i]? = some w) :
    ∃ w', t.build.objects[i]? = some w' ∧ w.Later w' ∧
      ((∀ d, a = some (.park d) → d.owner ≠ i) → w'.pending ≤ w.pending) := by
  rw [h.build_eq]
  cases a with
  | none => exact ⟨w, hw, .refl w, fun _ => le_rfl⟩
  | some a =>
      have start : ∀ root, a ≠ .start root := fun root he => h.not_start root (congrArg some he)
      refine ⟨_, Build.objects_apply start hw, ⟨Act.mark_object i w a, fun hc => Act.mark_configured hc i a,
        fun hn => Act.mark_notified hn i a⟩, fun others => ?_⟩
      cases a with
      | park d => exact (congrArg Tracked.pending (if_neg (others d rfl))).le
      | release j | configured j | notify j => simp only [Act.mark]; split <;> simp
      | _ => exact le_rfl

/-- Who has been told had been told before, or is told now. -/
theorem told (h : Turn a s t) (hw : t.build.objects[i]? = some w) (hn : w.notified = true) :
    a = some (.notify i) ∨ ∃ w', s.build.objects[i]? = some w' ∧ w'.notified = true := by
  rw [h.build_eq] at hw
  cases a with
  | none => exact .inr ⟨w, hw, hn⟩
  | some a =>
      have start : ∀ root, a ≠ .start root := fun root he => h.not_start root (congrArg some he)
      rcases Build.of_objects_apply start hw with ⟨w', hw', rfl⟩ | ⟨o, -, -, rfl⟩
      · by_cases he : a = .notify i
        · exact .inl (congrArg some he)
        · exact .inr ⟨w', hw', (Act.mark_notified_of_ne he w').symm.trans hn⟩
      · exact absurd hn (by simp)

/-- A component that exists is told as often as the container says. -/
theorem times (h : Turn a s t) {o : ObjectId} (ho : o < s.heap.length) :
    t.heap.times o + s.build.toldOf o = s.heap.times o + t.build.toldOf o := by
  cases h with
  | still build _ silent => rw [build, silent.times o ho]
  | act start notify _ =>
      exact congrArg (s.heap.times o + ·) (Build.countP_told_apply start notify o).symm
  | @tell _ _ w tracked ready =>
      have count := Build.countP_modify (fun t : Tracked => t.object == o && t.notified)
        (fun t => { t with notified := true }) tracked
      change (s.heap.finish w.object).times o + s.build.toldOf o = s.heap.times o
        + (s.build.objects.modify _ fun t => { t with notified := true }).countP _
      by_cases hw : w.object = o
      · subst hw
        rw [Heap.times_finish _ ho, Build.toldOf]
        simp [ready.notified] at count
        simp
        omega
      · have same : (s.heap.finish w.object).times o = s.heap.times o := by
          unfold Heap.times
          rw [Heap.getElem?_finish_of_ne _ hw]
        simp [hw] at count
        rw [same, Build.toldOf]
        omega

theorem length_le (h : Turn a s t) : s.heap.length ≤ t.heap.length := by
  cases h with
  | still _ _ silent => exact silent.length_le
  | act _ _ _ => exact le_rfl
  | tell _ _ => exact (s.heap.length_finish _).ge

end Turn

namespace Row

theorem one (h : Turn a s t) : Row s a.toList t := List.append_nil a.toList ▸ .tail (.refl s) h

theorem of_quiet (h : Run.Quiet s t) : Row s [] t := .one (.still h.build h.acts (h.heap ▸ .refl _))

theorem trans (h : Row s acts t) (h' : Row t more u) : Row s (more ++ acts) u := by
  induction h' with
  | refl => exact h
  | tail _ turn ih =>
      rw [List.append_assoc]
      exact .tail ih turn

theorem acts_eq (h : Row s acts t) : t.acts = acts ++ s.acts := by
  induction h with
  | refl => rfl
  | tail _ turn ih => rw [turn.acts_eq, ih, List.append_assoc]

/-- What the container knows is what its acts say. -/
theorem build_eq (h : Row s acts t) {l : Ledger} (hl : l.build = s.build) : (l.replay acts).build = t.build := by
  induction h with
  | refl => exact hl
  | @tail t u acts a _ turn ih =>
      rw [turn.build_eq]
      cases a with
      | none => exact ih
      | some a => exact (Ledger.build_after _ a).trans (congrArg (·.apply a) ih)

theorem length_le (h : Row s acts t) : s.heap.length ≤ t.heap.length := by
  induction h with
  | refl => exact le_rfl
  | tail _ turn ih => exact ih.trans turn.length_le

theorem distinct (h : Row s acts t) (hs : (s.build.objects.map (·.object)).Nodup) :
    (t.build.objects.map (·.object)).Nodup := by
  induction h with
  | refl => exact hs
  | tail _ turn ih => exact turn.distinct ih

/-- A row of acts can be cut anywhere. -/
theorem split (h : Row s (later ++ earlier) t) : ∃ u, Row s earlier u ∧ Row u later t := by
  generalize hacts : later ++ earlier = acts at h
  induction h generalizing later with
  | refl =>
      obtain ⟨rfl, rfl⟩ := List.append_eq_nil_iff.mp hacts
      exact ⟨_, .refl _, .refl _⟩
  | @tail t u acts a row turn ih =>
      cases a with
      | none =>
          obtain ⟨v, first, rest⟩ := ih hacts
          exact ⟨v, first, .tail rest turn⟩
      | some a =>
          cases later with
          | nil =>
              obtain rfl : earlier = a :: acts := hacts
              exact ⟨u, .tail row turn, .refl u⟩
          | cons b later =>
              obtain ⟨rfl, same⟩ := List.cons.inj hacts
              obtain ⟨v, first, rest⟩ := ih same
              exact ⟨v, first, .tail rest turn⟩

/-- A component that is told is ready where it is told. -/
theorem split_notify (h : Row s (later ++ .notify i :: earlier) t) :
    ∃ u w, Row s earlier u ∧ u.build.objects[i]? = some w ∧ w.Ready ∧ Row (u.tell i w) later t := by
  generalize hacts : later ++ .notify i :: earlier = acts at h
  induction h generalizing later with
  | refl => exact absurd hacts (by simp)
  | @tail t u acts a row turn ih =>
      cases a with
      | none =>
          obtain ⟨v, w, first, tracked, ready, rest⟩ := ih hacts
          exact ⟨v, w, first, tracked, ready, .tail rest turn⟩
      | some a =>
          cases later with
          | nil =>
              obtain ⟨rfl, rfl⟩ := List.cons.inj hacts
              cases turn with
              | act _ notify _ => exact absurd rfl (notify i)
              | tell tracked ready => exact ⟨t, _, row, tracked, ready, .refl _⟩
          | cons b later =>
              obtain ⟨rfl, same⟩ := List.cons.inj hacts
              obtain ⟨v, w, first, tracked, ready, rest⟩ := ih same
              exact ⟨v, w, first, tracked, ready, .tail rest turn⟩

/-! ## What stays -/

/-- What is tracked stays tracked, and waits for no more unless something is parked for it. -/
theorem stays (h : Row s acts t) (hw : s.build.objects[i]? = some w) :
    ∃ w', t.build.objects[i]? = some w' ∧ w.Later w' ∧
      ((∀ d, .park d ∈ acts → d.owner ≠ i) → w'.pending ≤ w.pending) := by
  induction h with
  | refl => exact ⟨w, hw, .refl w, fun _ => le_rfl⟩
  | @tail t u acts a _ turn ih =>
      obtain ⟨v, hv, first, fewer⟩ := ih
      obtain ⟨w', hw', rest, few⟩ := turn.stays hv
      refine ⟨w', hw', first.trans rest, fun others => ?_⟩
      exact (few fun d hd => others d (by simp [hd])).trans
        (fewer fun d hd => others d (List.mem_append_right _ hd))

/-- Who has been told had been told before the row, or is told in it. -/
theorem told (h : Row s acts t) (hw : t.build.objects[i]? = some w) (hn : w.notified = true) :
    .notify i ∈ acts ∨ ∃ w', s.build.objects[i]? = some w' ∧ w'.notified = true := by
  induction h generalizing w with
  | refl => exact .inr ⟨w, hw, hn⟩
  | @tail t u acts a _ turn ih =>
      rcases turn.told hw hn with rfl | ⟨w', hw', hn'⟩
      · exact .inl List.mem_cons_self
      · exact (ih hw' hn').imp_left (List.mem_append_right _)

/-- Who is told in a row has been told after it. -/
theorem notified (h : Row s acts t) (hm : .notify i ∈ acts) :
    ∃ w, t.build.objects[i]? = some w ∧ w.notified = true := by
  obtain ⟨later, earlier, rfl⟩ := List.append_of_mem hm
  obtain ⟨u, w, -, tracked, -, rest⟩ := h.split_notify
  have marked : (u.tell i w).build.objects[i]? = some { w with notified := true } :=
    (Build.objects_apply (a := .notify i) (by simp) tracked).trans (by simp [Act.mark])
  obtain ⟨w', hw', later, -⟩ := rest.stays marked
  exact ⟨w', hw', later.notified rfl⟩

/-- A component is told once. -/
theorem notify_once (h : Row s (later ++ .notify i :: earlier) t) :
    .notify i ∉ earlier ∧ .notify i ∉ later := by
  have before : ∀ later earlier : List Act, Row s (later ++ .notify i :: earlier) t → .notify i ∉ earlier := by
    intro later earlier h hm
    obtain ⟨u, w, first, tracked, ready, -⟩ := h.split_notify
    obtain ⟨w', hw', hn⟩ := first.notified hm
    obtain rfl := Option.some.inj (tracked.symm.trans hw')
    exact absurd hn (by simp [ready.notified])
  refine ⟨before later earlier h, fun hm => ?_⟩
  -- then it had been told where it is told for the second time
  obtain ⟨newer, older, rfl⟩ := List.append_of_mem hm
  rw [List.append_assoc] at h
  exact before newer _ h (by simp)

/-- Between two moments a component that exists is told as often as the container says. -/
theorem times (h : Row s acts t) {o : ObjectId} (ho : o < s.heap.length) :
    t.heap.times o + s.build.toldOf o = s.heap.times o + t.build.toldOf o := by
  induction h with
  | refl => rfl
  | tail row turn ih =>
      have first := ih
      have rest := turn.times (ho.trans_le row.length_le)
      omega

end Row

/-! ## Telling everybody who can be told -/

/-- The course of a container that tells everybody who can be told. -/
def informing : Course where
  ends _ _ s t := (∃ acts, Row s acts t) ∧ (AllTold s → AllTold t)
  cuts _ s t := ∃ acts, Row s acts t
  quiet h := ⟨⟨[], .of_quiet h⟩, fun hs => by
    unfold AllTold
    rwa [h.build]⟩
  trans := by
    rintro _ _ _ s t u ⟨⟨acts, row⟩, told⟩ ⟨⟨more, row'⟩, told'⟩
    exact ⟨⟨more ++ acts, row.trans row'⟩, told' ∘ told⟩
  stop _ s := ⟨[], .refl s⟩
  trans_cut := by
    rintro _ _ s t u ⟨⟨acts, row⟩, -⟩ ⟨more, row'⟩
    exact ⟨more ++ acts, row.trans row'⟩

theorem informing_still (build : t.build = s.build) (acts : t.acts = s.acts) (silent : s.heap.Silent t.heap) :
    informing.ends () () s t := by
  refine ⟨⟨[], .one (.still build acts silent)⟩, fun hs => ?_⟩
  unfold AllTold
  rwa [build]

namespace Container

variable {k : Container}

theorem act_informs {e : Act} (start : ∀ root, e ≠ .start root) (notify : ∀ i, e ≠ .notify i)
    (track : ∀ o, e = .track o → s.Untracked o) (release : ∀ i, e ≠ .release i) (configured : ∀ i, e ≠ .configured i) :
    informing.ends () () s (s.acted e) :=
  ⟨⟨[e], .one (.act start notify track)⟩, fun hs => (did_act s start).told hs release configured⟩

theorem setProperty_informs (o : ObjectId) (name : String) (v : Value) :
    Within informing (Run.setProperty o name v) :=
  fun s => informing_still rfl rfl (s.heap.silent_set o name v)

theorem allocate_informs (c : Component) : Within informing (Run.allocate c) :=
  fun s => informing_still rfl rfl (s.heap.silent_allocate c)

theorem construct_informs (hk : k.types.MakesSilently) (name context : String) :
    Within informing (k.construct name context) := by
  unfold construct
  split
  · exact .pure _
  next make hmake => exact fun s => informing_still rfl rfl (hk name make hmake s.heap)

theorem free_informs {e : Act} (free : e.Free) : Within informing (Run.act e) := by
  have other : ∀ {x : Act}, ¬ x.Free → e ≠ x := fun hx he => hx (he ▸ free)
  exact fun s => act_informs (fun _ => other id) (fun _ => other id) (fun _ he => absurd he (other id))
    (fun _ => other id) fun _ => other id

theorem track_informs (o : ObjectId) : Within informing (track o) := by
  intro s
  unfold track
  rw [Run.after_bind, Run.after_build]
  split
  · exact informing.refl () s
  next none =>
    refine act_informs (by simp) (by simp) (fun p hp => ?_) (by simp) (by simp)
    obtain rfl := Act.track.inj hp
    intro t ht
    simpa using List.findIdx?_eq_none_iff.mp none t ht

/-- Where all but one have been told who can be, all have after looking at that one. -/
theorem notifyIfReady_informs (i : Nat) (s : Session) :
    After (notifyIfReady i) s (fun _ t => (∃ acts, Row s acts t) ∧ (AllToldBut i s → AllTold t)) fun _ => False := by
  refine (notifyIfReady_cases i s).mono (fun _ t h => ?_) fun _ => id
  obtain ⟨rfl, unready⟩ | ⟨w, hw, ready, build, acts, heap⟩ := h
  · refine ⟨⟨[], .refl t⟩, fun others => others.allTold fun w hw hconf hpend => ?_⟩
    by_contra hnot
    exact unready w hw ⟨hconf, hpend, by simpa using hnot⟩
  · have told : Row s [.notify i] (s.tell i w) := .one (.tell hw ready)
    refine ⟨⟨[.notify i], .tail told (.still build acts (heap ▸ .refl _))⟩, fun others => ?_⟩
    unfold AllTold
    rw [build]
    exact (did_act s (by simp)).all_told others

/-- A component is released or said to be configured, and told if it is ready then. -/
theorem act_notify_informs {e : Act} (he : e = .release i ∨ e = .configured i) :
    Within informing (do Run.act e; notifyIfReady i) := by
  have other : ∀ {x : Act}, Act.release i ≠ x → Act.configured i ≠ x → e ≠ x := by
    rintro x hr hc rfl
    exact he.elim (fun he => hr he.symm) fun he => hc he.symm
  intro s
  have start : ∀ root, e ≠ .start root := fun _ => other (by simp) (by simp)
  have row : Row s [e] (s.acted e) :=
    .one (.act start (fun _ => other (by simp) (by simp)) fun _ he => absurd he (other (by simp) (by simp)))
  rw [Run.after_bind, Run.after_act]
  refine (notifyIfReady_informs i (s.acted e)).mono (fun _ t ⟨⟨acts, rest⟩, told⟩ => ?_) fun _ => False.elim
  exact ⟨⟨acts ++ [e], row.trans rest⟩, fun hs => told ((did_act s start).told_but hs he)⟩

theorem fillProperty_informs (k : Container) (i : Nat) (place : List Place) (v : Option Value) :
    Within informing (k.fillProperty i place v) := by
  have fill (d : Deferred) : Within informing (Run.act (.fill i place (v.getD .null))) := fun s =>
    act_informs (by simp) (by simp) (by simp) (by simp) (by simp)
  have release (i : Nat) : Within informing (release i) := act_notify_informs (.inl rfl)
  refine .bind .build fun b => ?_
  split
  · exact .pure _
  next d _ =>
    refine .bind (fill d) fun _ => ?_
    split
    · exact .pure _
    · refine .bind .build fun b => ?_
      split
      · exact .pure _
      · split
        · exact .bind (.report _ _ _ _) fun _ => release _
        · exact .bind (assign_obeys free_informs setProperty_informs _ _ _ _ _) fun _ => release _

/-- What the operations of a container come down to tells everybody who can be told. -/
theorem regular_informing (hk : k.types.MakesSilently) : k.Regular informing where
  setProperty := setProperty_informs
  allocate := allocate_informs
  construct := construct_informs hk
  act := free_informs
  track := track_informs
  markConfigured _ := act_notify_informs (.inr rfl)
  fillProperty := fillProperty_informs k

/-- Whatever the container's machine does, it tells everybody who can be told. -/
theorem machine_informs (hk : k.types.MakesSilently) (n : Nat) : k.Obeys informing (k.machine n) :=
  machine_obeys (regular_informing hk) n

end Container

end ObjectGraph
