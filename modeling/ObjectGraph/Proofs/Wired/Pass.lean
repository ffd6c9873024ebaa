import ObjectGraph.Proofs.Completion.Sequence
import ObjectGraph.Proofs.Waiting.Pass
import ObjectGraph.Proofs.Wired.Name

/-!
# `Proofs.Wired.Pass` — passes over plain data

A pass starts in the empty world and builds the leading names one after the other. It ends if it has a step
for every level of every name, and then its session stands in a world in which every leading name has been
got to: it has a state, unless its chain of references ends in nothing.

Contents:
* `PlainRoot.mem_buildOrder`, which names are built in any order;
* `passSteps`, `PlainConfiguration`, how one is made and its root;
* `buildAll_wires`, `Finished`, `Container.resolve_finishes`.
-/

namespace ObjectGraph

open ObjectGraph.Configuration (ReadsTexts)
open Ledger (Accounted)
open Run (After)

/-! ## Plain configurations -/

/-- The steps that a pass over plain data takes at most: one for every level of every name, and some. -/
def passSteps (members : List (String × Json)) : Nat :=
  members.length * ((Json.object members).depth + 2) + members.length + 1

/-- A configuration with a map of plain data, whose texts are read as they stand. -/
structure PlainConfiguration (k : Container) (c : Configuration) (members : List (String × Json)) : Prop where
  data : c.data = .object members
  plain : Json.Plain k.types (.object members)
  reads : ReadsTexts k.host c.handler

namespace PlainConfiguration

variable {k : Container} {c : Configuration} {members : List (String × Json)}

/-- A root that is written as plain data. -/
theorem make {handler : Handler} (plain : Json.Plain k.types (.object members))
    (reads : ReadsTexts k.host handler) : PlainConfiguration k (.make (.object members) handler) members :=
  ⟨plain.data_child (.make (.object members) handler), plain, reads⟩

/-- What a pass over the configuration starts from. -/
def root (hc : PlainConfiguration k c members) : PlainRoot k where
  root := c.withHandler c.handler.withContainer
  members := members
  data := hc.data
  plain := hc.plain
  named := by
    show (Table.insert "new" _ (Table.insert "make" _ (Table.insert "named" _ c.handler.schemes))).lookup "named" = _
    rw [Table.lookup_insert, if_neg (by decide), Table.lookup_insert, if_neg (by decide), Table.lookup_insert,
      if_pos rfl]
  reads := hc.reads

end PlainConfiguration

namespace PlainRoot

variable {k : Container} {R : PlainRoot k} {m : Machine} {w w' : World} {s t : Session} {n : String}

/-- The keys of the root are names. -/
theorem isName_of_lookup (R : PlainRoot k) (h : (R.members.lookup n).isSome) : IsName n := by
  obtain ⟨j, hj⟩ := Option.isSome_iff_exists.mp h
  exact (R.plain.plainKey (Table.mem_of_lookup hj)).isName

/-- The names that are built in any order are those that lead. -/
theorem mem_buildOrder (R : PlainRoot k) {priority : List String} (hp : ∀ n ∈ priority, IsName n) (n : String) :
    n ∈ Container.buildOrder priority R.root ↔ Leading R.members n := by
  have keys : R.root.keys = Table.keys R.members := Configuration.keys_of_object R.data
  have has : IsName n → (R.root.has n = true ↔ (R.members.lookup n).isSome) := by
    intro hn
    rw [Configuration.has_of_isName hn, R.data]
    rfl
  rw [Container.mem_buildOrder_iff, Container.buildable_iff, keys]
  constructor
  · rintro ⟨hmem, ⟨hdir, hdash⟩, hhas⟩
    have name : IsName n := by
      rcases hmem with hmem | hmem
      · exact hp n hmem
      · obtain ⟨e, he, rfl⟩ := List.mem_map.mp hmem
        exact (R.plain.plainKey he).isName
    exact ⟨(has name).mp hhas, hdir, hdash⟩
  · rintro ⟨there, hdir, hdash⟩
    obtain ⟨j, hj⟩ := Option.isSome_iff_exists.mp there
    have listed : n ∈ Table.keys R.members := List.mem_map_of_mem (Table.mem_of_lookup hj)
    exact ⟨.inr listed, ⟨hdir, hdash⟩, (has (R.isName_of_lookup there)).mpr there⟩

/-! ## Building all names -/

/-- The name has been got to: it has begun or is built, or nothing can be built for it. -/
def Attempted (R : PlainRoot k) (w : World) (n : String) : Prop :=
  w.begun n ∨ (w.built n).isSome ∨ Barren k.types R.members n

theorem Attempted.mono (h : R.Attempted w n) (hw : w ≤ w') : R.Attempted w' n := by
  rcases h with h | h | h
  · exact .inl (hw.begun n h)
  · obtain ⟨v, hv⟩ := Option.isSome_iff_exists.mp h
    refine .inr (.inl ?_)
    rw [hw.built n v hv]
    rfl
  · exact .inr (.inr h)

/-- What a reference is to has been got to, if anything stands for it. -/
theorem attempted_of_refers {h : Home} {str : String} {ov : Option Value} (hr : R.Realizes w h (.string str) ov)
    (hs : Refers str n) : R.Attempted w n := by
  cases hr with
  | scalar hj => exact absurd hj (not_scalar_of_refers hs)
  | waiting hs' hn => exact .inl (hs.unique hs' ▸ hn)
  | built hs' hv =>
      refine .inr (.inl ?_)
      rw [hs.unique hs', hv]
      rfl
  | barren hs' hn => exact .inr (.inr (hs.unique hs' ▸ hn))

/-- When all names of a row have been built, they have all been got to. -/
theorem buildAll_wires (hm : R.Builds m) (hd : R.Delivers m) (ha : m.Accounts) (hops : Nat) {names : List String}
    (hn : ∀ n ∈ names, Leading R.members n) (hb : s.Bears .nothing) (hs : R.Standing w s)
    (clear : R.Clear s) :
    After (k.buildAll m hops names) s (fun _ => R.Leads none none w s fun w' => ∀ n ∈ names, R.Attempted w' n)
      fun _ => m.steps + 1 < R.cost s := by
  induction names generalizing s w with
  | nil => exact ⟨w, .refl w s, hs, by simp⟩
  | cons n names ih =>
      have leading := hn n List.mem_cons_self
      have name := R.isName_of_lookup leading.there
      have openly : R.Open n s := (clear.ready (.string _)).reference _ n rfl (refers_encode name)
      have carries : accounting.Carries .nothing .nothing (k.tryGetNamed m hops n) :=
        Container.tryGetNamed_within ha hops n
      unfold Container.buildAll
      rw [Run.after_bind]
      refine ((tryGetNamed_wires hm hd ha hops name (.leading leading) hb hs openly).bears carries hb).mono
        (fun r t ht => ?_) fun _ => id
      obtain ⟨hb', w', hadv, hs', hr⟩ := ht
      have here := attempted_of_refers (hr (n, []) _ (refers_encode name)) (refers_encode name)
      have less := cost_anti hadv
      -- a failure is reported, and then the others are built
      have rest : ∀ u, Run.Quiet t u → After (k.buildAll m hops names) u
          (fun _ => R.Leads none none w s fun w' => ∀ l ∈ n :: names, R.Attempted w' l)
          fun _ => m.steps + 1 < R.cost s := by
        intro u hq
        have idle := Idle.of_quiet hq
        refine (ih (fun l hl => hn l (List.mem_cons_of_mem _ hl)) (hb'.quiet hq) (hs'.idle idle)
          ((clear.advance hadv).idle idle)).mono (fun _ u' hu => ?_) fun _ hcut => ?_
        · refine Leads.after (hadv.trans (.idle idle)) hu fun w'' hw hall l hl => ?_
          rcases List.mem_cons.mp hl with rfl | hl
          · exact here.mono hw
          · exact hall l hl
        · rw [cost_quiet hq] at hcut
          omega
      rcases r with e | v
      · exact rest _ ⟨rfl, rfl, rfl⟩
      · exact rest _ ⟨rfl, rfl, rfl⟩

/-! ## Passes -/

theorem cost_le_passSteps (s : Session) : R.cost s ≤ passSteps R.members := by
  have rooms : R.room s ≤ R.members.length := List.countP_le_length
  have more := Nat.mul_le_mul_right ((Json.object R.members).depth + 2) rooms
  unfold cost passSteps
  omega

/-- A pass starts in the empty world. -/
theorem standing_started (R : PlainRoot k) (s : Session) : R.Standing .empty (Container.started s R.root) := by
  have unbuilt : ∀ n, (Container.started s R.root).build.stateOf? n = none := fun _ => rfl
  have none_isSome : ∀ {α : Type} {P : Prop}, (none : Option α).isSome → P := fun h => absurd h Bool.false_ne_true
  refine ⟨?_, ⟨fun i d h => absurd h (by simp [Container.started, Build.apply, Build.start]),
    fun i d h => absurd h (by simp [Container.started, Build.apply, Build.start])⟩, ?_, ?_, fun _ _ h => h.elim, ?_⟩
  · refine ⟨rfl, fun n v => ?_, fun n => ?_, fun n h => ?_, fun n h => ?_, fun n => ?_, List.nodup_nil, fun n _ => rfl,
      fun n v h => ?_⟩
    · rw [unbuilt]
      exact iff_of_false (by simp [World.empty]) (by simp)
    · rw [unbuilt]
      exact iff_of_false id fun h => none_isSome h.1
    · rw [unbuilt] at h
      exact none_isSome h
    · rw [unbuilt] at h
      exact none_isSome h
    · exact iff_of_false (List.not_mem_nil (a := n)) none_isSome
    · exact absurd h (by simp [World.empty])
  · exact ⟨fun _ _ _ ho => absurd ho (by simp [World.empty]), fun _ _ _ _ _ ho => absurd ho (by simp [World.empty]),
      fun _ _ _ ho => absurd ho (by simp [World.empty])⟩
  · intro o h ms ho
    exact absurd ho (by simp [World.empty])
  · intro o ho
    exact absurd ho (List.not_mem_nil (a := o))

/-- The session of a pass that is over; so many components were there before. -/
structure Finished (R : PlainRoot k) (before : Nat) (w : World) (t : Session) : Prop where
  standing : R.Standing w t
  /-- The components of the pass were made for nodes. -/
  made : ∀ o, (w.home o).isSome ↔ before ≤ o ∧ o < t.heap.length
  /-- Nothing is in hand any more. -/
  account : ∃ l, l.build = t.build ∧ Accounted l ∧ l.Bears .nothing 0 0
  attempted : ∀ n, Leading R.members n → R.Attempted w n

end PlainRoot

/-- What a pass gives that ends with a session. -/
def Session.outcome (t : Session) : Except BuildError Registry :=
  match t.build.unsettled t.heap with
  | none => .ok t.build.registry
  | some names => .error (.unresolvedPending names)

/-- A pass succeeds just if nothing is left. -/
theorem Session.outcome_ok {t : Session} {registry : Registry} (h : t.outcome = .ok registry) :
    t.build.unsettled t.heap = none ∧ registry = t.build.registry := by
  unfold Session.outcome at h
  split at h
  next hu => exact ⟨hu, (Except.ok.inj h).symm⟩
  · exact absurd h (by simp)

theorem Session.outcome_ok_iff {t : Session} :
    (∃ registry, t.outcome = .ok registry) ↔ t.build.unsettled t.heap = none := by
  refine ⟨fun ⟨registry, h⟩ => (Session.outcome_ok h).1, fun h => ⟨t.build.registry, ?_⟩⟩
  unfold Session.outcome
  rw [h]

namespace Container

variable {k : Container} {c : Configuration} {members : List (String × Json)}

/-- A pass over plain data ends, unless it has too few steps, and then it is over in some world. -/
theorem pass_finishes (R : PlainRoot k) (steps : Nat) {s : Session} (hp : ∀ n ∈ s.build.priority, IsName n) :
    After (k.pass steps R.root) s (fun r t => r = t.outcome ∧ ∃ w, R.Finished s.heap.length w t)
      fun _ => steps < passSteps R.members := by
  have account := pass_after k steps R.root s
  have order := PlainRoot.mem_buildOrder R hp
  have bears : (started s R.root).Bears .nothing :=
    ⟨.start s.build R.root, 0, 0, rfl, .start s.build R.root, rfl, rfl, rfl⟩
  have unstarted : ∀ n ws, (started s R.root).build.stateOf? n ≠ some (.building ws) := by
    intro n ws
    show (none : Option NameState) ≠ _
    simp
  have all := PlainRoot.buildAll_wires (PlainRoot.machine_builds R steps) (PlainRoot.machine_delivers R steps)
    (machine_accounts k steps) Configuration.depthLimit
    (fun n (hn : n ∈ buildOrder s.build.priority R.root) => (order n).mp hn) bears (R.standing_started s)
    fun n ws _ => unstarted n ws
  have standing : After (k.pass steps R.root) s
      (fun _ t => ∃ w, R.Standing w t ∧ (∀ o, (w.home o).isSome ↔ s.heap.length ≤ o ∧ o < t.heap.length) ∧
        ∀ n, Leading R.members n → R.Attempted w n)
      fun _ => steps < passSteps R.members := by
    unfold pass startPass
    rw [Run.after_bind, Run.after_act, Run.after_bind, Run.after_build, Run.after_bind]
    refine After.mono all (fun _ t ht => ?_) fun t hcut => ?_
    · obtain ⟨w, hadv, hs, hall⟩ := ht
      have made : ∀ o, (w.home o).isSome ↔ s.heap.length ≤ o ∧ o < t.heap.length := by
        intro o
        constructor
        · intro ho
          obtain ⟨⟨p, ms⟩, ho⟩ := Option.isSome_iff_exists.mp ho
          obtain ⟨c, hc, -⟩ := hs.holding o p ms ho
          refine ⟨Nat.not_lt.mp fun old => ?_, (List.getElem?_eq_some_iff.mp hc).1⟩
          exact absurd ((hadv.settled o old).symm.trans ho) (by simp [World.empty])
        · exact fun ho => hadv.made o ho.1 ho.2
      have done : ∀ n, Leading R.members n → R.Attempted w n := fun n hl => hall n ((order n).mpr hl)
      unfold settle
      rw [Run.after_bind, Run.after_build, Run.after_bind, Run.after_heap]
      split
      · exact ⟨w, hs, made, done⟩
      · exact ⟨w, hs, made, done⟩
    · rw [steps_machine] at hcut
      have enough := PlainRoot.cost_le_passSteps (R := R) (started s R.root)
      omega
  refine (account.and standing).mono (fun r t ht => ?_) fun _ h => h.2
  obtain ⟨⟨l, conducts, hl, hr⟩, w, hs, made, hall⟩ := ht
  refine ⟨?_, w, hs, made, ⟨l, conducts.build, conducts.accounted (.start s.build R.root), hl⟩, hall⟩
  rw [hr, conducts.build]
  rfl

/-- Resolving a plain configuration ends, unless it has too few steps, and then it is over in some world. -/
theorem resolve_finishes (hc : PlainConfiguration k c members) (steps : Nat) {s : Session}
    (hp : ∀ n ∈ s.build.priority, IsName n) :
    After (k.resolve steps c) s (fun r t => r = t.outcome ∧ ∃ w, hc.root.Finished s.heap.length w t)
      fun _ => steps < passSteps members := by
  have object : (!c.data.isObject) = false := by
    rw [hc.data]
    rfl
  unfold resolve
  rw [object, if_neg Bool.false_ne_true, Run.after_bind]
  refine (hc.plain.normalize_after rfl (c := c.withHandler c.handler.withContainer) hc.data _ _ steps s).mono
    (fun root t ht => ?_) fun _ hcut => ?_
  · obtain ⟨rfl, rfl⟩ := ht
    exact pass_finishes hc.root steps hp
  · unfold passSteps
    omega

end Container

end ObjectGraph
