import ObjectGraph.Proofs.Waiting.Conduct

/-!
# `Proofs.Waiting.Pass` — the account of a pass

A pass starts with nothing on its account and builds one name after the other, so its account balances at
every moment (`pass_accounted`), however it goes on and also if it runs out of steps. When the pass is over
nothing is in hand any more: what is parked then waits on names that are building, which is why a pass that
fails with placeholders left can always say for which names.

Contents:
* `Act.served?`, `served_eq`;
* `pass_of_buildAll`; `pass_after`, that a pass is a trace from its start;
* `unsettled_ne_nil`;
* `pass_accounted`.
-/

namespace ObjectGraph

open Ledger (Accounted Trace)
open Run (After Within)

/-- The placeholder that an act serves. -/
def Act.served? : Act → Option (Slot × List Place)
  | .fill i place _ => some (.property i, place)
  | .fillName i place _ => some (.name i, place)
  | _ => none

namespace Ledger

/-- What a ledger notes as served is what the acts have served. -/
theorem served_eq {l l' : Ledger} {acts : List Act} (h : Trace l acts l') :
    l'.served = (acts.filterMap Act.served? : List (Slot × List Place)) + l.served := by
  induction h with
  | refl => simp
  | @act l' acts a _ ha ih =>
      cases a with
      | start root => exact ha.elim
      | fill i place v => simp [after, serve, Act.served?, ih, Multiset.cons_add, ← Multiset.cons_coe]
      | fillName i place v => simp [after, serve, Act.served?, ih, Multiset.cons_add, ← Multiset.cons_coe]
      | _ => exact ih

end Ledger

namespace Build

theorem mem_ascending (names : List String) (n : String) : n ∈ ascending names ↔ n ∈ names := by
  unfold ascending
  rw [Table.mem_keys_insertAll]
  simp [Table.keys]

/-- A waiter sits on a name that is building. -/
theorem mem_buildingNames_of_waiting {b : Build} {f : Flight} (hf : f ∈ b.waiting) :
    f.pending.name ∈ b.buildingNames := by
  obtain ⟨⟨name, st⟩, he, hf⟩ := mem_gather.mp hf
  cases st with
  | built v => exact absurd hf (by simp [NameState.flights, NameState.waiters])
  | building ws =>
      obtain ⟨w, -, rfl⟩ : ∃ w ∈ ws, w.flight name = f := by
        simpa [NameState.flights, NameState.waiters] using hf
      exact List.mem_map.mpr ⟨(name, .building ws), List.mem_filter.mpr ⟨he, rfl⟩, rfl⟩

end Build

/-- A pass that is over and has left something can say for which names. -/
theorem unsettled_ne_nil {l : Ledger} (hl : Accounted l) (hf : l.flights = 0) {h : Heap}
    {names : List String} (hu : l.build.unsettled h = some names) : names ≠ [] := by
  unfold Build.unsettled at hu
  dsimp only at hu
  split at hu
  · exact absurd hu (by simp)
  next hleft =>
    obtain rfl : Build.ascending _ = names := Option.some.inj hu
    intro hnil
    have none : l.build.buildingNames ++ h.unresolved l.build.values = [] := by
      refine List.eq_nil_iff_forall_not_mem.mpr fun n hn => ?_
      have := (Build.mem_ascending _ n).mpr hn
      rw [hnil] at this
      exact absurd this (by simp)
    -- no name is left, so something is parked; what waits for it sits on a name
    obtain ⟨d, hd⟩ : ∃ d, some d ∈ l.build.deferred := by
      by_contra hno
      refine hleft ⟨none, ?_⟩
      refine List.length_eq_zero_iff.mpr (List.filter_eq_nil_iff.mpr fun d hd => ?_)
      cases d with
      | none => simp
      | some d => exact absurd ⟨d, hd⟩ hno
    obtain ⟨i, hi⟩ := List.mem_iff_getElem?.mp hd
    have parked : l.build.parked? (.property i) = some (d.value, d.outstanding) := by
      simp [Build.parked?, hi]
    obtain ⟨count, pos⟩ := hl.slots.outstanding _ _ _ parked
    rw [count] at pos
    obtain ⟨f, hf', -⟩ := Multiset.countP_pos.mp pos
    have waits : f ∈ l.build.waiting := by simpa [Ledger.waiting, hf] using hf'
    have := Build.mem_buildingNames_of_waiting waits
    rw [(List.append_eq_nil_iff.mp none).1] at this
    exact absurd this (by simp)

namespace Container

theorem buildAll_within (k : Container) (n hops : Nat) (names : List String) :
    Within accounts (k.buildAll (k.machine n) hops names) :=
  buildAll_carries (tryGetNamed_within (machine_accounts k n) hops) names

/-- The session in which a pass has just started. -/
def started (s : Session) (root : Configuration) : Session :=
  { s with build := s.build.apply (.start root), acts := .start root :: s.acts }

/-- A pass builds the names of its root from where it has started, and then looks at what is left. -/
theorem pass_of_buildAll {k : Container} {steps : Nat} {root : Configuration} {s : Session}
    {done cut : Session → Prop}
    (all : After (k.buildAll (k.machine steps) Configuration.depthLimit (buildOrder s.build.priority root))
      (started s root) (fun _ => done) cut) :
    After (k.pass steps root) s
      (fun r t => done t ∧ r = match t.build.unsettled t.heap with
        | none => .ok t.build.registry
        | some names => .error (.unresolvedPending names)) cut := by
  unfold pass startPass settle
  rw [Run.after_bind, Run.after_act, Run.after_bind, Run.after_build, Run.after_bind]
  refine all.mono (fun _ t h => ?_) fun _ => id
  rw [Run.after_bind, Run.after_build, Run.after_bind, Run.after_heap]
  cases hu : t.build.unsettled t.heap with
  | none => exact ⟨h, by rw [hu]⟩
  | some names => exact ⟨h, by rw [hu]⟩

/-- A pass is a trace from its start. When it is over nothing is in hand, and it fails for what is left. -/
theorem pass_after (k : Container) (steps : Nat) (root : Configuration) (s : Session) :
    After (k.pass steps root) s
      (fun r t => ∃ l, Conducts (started s root) t (.start s.build root) l ∧ l.Bears .nothing 0 0 ∧
        r = match l.build.unsettled t.heap with
          | none => .ok l.build.registry
          | some names => .error (.unresolvedPending names))
      (fun t => ∃ l, Conducts (started s root) t (.start s.build root) l) := by
  have start : (Ledger.start s.build root).Bears .nothing 0 0 := ⟨rfl, rfl, rfl⟩
  have balanced := Accounted.start s.build root
  have all := buildAll_within k steps Configuration.depthLimit (buildOrder s.build.priority root) (started s root)
  refine (pass_of_buildAll all).mono (fun r t ⟨h, result⟩ => ?_) fun t h => h.account _ rfl balanced 0 0 start
  obtain ⟨l, conducts, bears⟩ := h.account _ rfl balanced 0 0 start
  exact ⟨l, conducts, bears, conducts.build ▸ result⟩

/-- A pass that succeeds has nobody waiting. -/
theorem waiting_of_settled {b : Build} {h : Heap} (hu : b.unsettled h = none) : b.waiting = 0 := by
  refine Multiset.eq_zero_of_forall_notMem fun f hf => ?_
  have building := Build.mem_buildingNames_of_waiting hf
  unfold Build.unsettled at hu
  dsimp only at hu
  split at hu
  next hleft =>
    rw [(List.append_eq_nil_iff.mp hleft.1).1] at building
    exact absurd building (by simp)
  · exact absurd hu (by simp)

/-- Waiter accounting. From the start of a pass on, the acts of the container leave its account balanced at
every moment, so that a placeholder that was parked has been served once or waits to be. When the pass is
over nothing is in hand any more: a placeholder that has not been served sits on a name that is building. If
the pass succeeds there is none, and if it fails for placeholders it names some. -/
theorem pass_accounted (k : Container) (steps : Nat) (root : Configuration) (s : Session) :
    ∃ acts l,
      ((k.pass steps root).run s).2.acts = acts ++ .start root :: s.acts ∧
      l = (Ledger.start s.build root).replay acts ∧
      l.build = ((k.pass steps root).run s).2.build ∧
      (∀ moment, moment <:+ acts →
        Accounted ((Ledger.start s.build root).replay moment) ∧
        ((Ledger.start s.build root).replay moment).served
          = (moment.filterMap Act.served? : List (Slot × List Place))) ∧
      ∀ r, ((k.pass steps root).run s).1 = some r →
        l.Bears .nothing 0 0 ∧
        (∀ a ∈ l.enrolled, a ∉ l.served →
          ∃ f ∈ l.build.waiting, f.address = a ∧ f.pending.name ∈ l.build.buildingNames) ∧
        (∀ registry, r = .ok registry → l.served = l.enrolled) ∧
        ∀ names, r = .error (.unresolvedPending names) → names ≠ [] := by
  obtain ⟨l, conducts, ended⟩ : ∃ l,
      Conducts (started s root) ((k.pass steps root).run s).2 (.start s.build root) l ∧
      ∀ r, ((k.pass steps root).run s).1 = some r → l.Bears .nothing 0 0 ∧
        r = match l.build.unsettled ((k.pass steps root).run s).2.heap with
          | none => .ok l.build.registry
          | some names => .error (.unresolvedPending names) := by
    have after := pass_after k steps root s
    unfold After at after
    rcases hrun : (k.pass steps root).run s with ⟨_ | r, t⟩ <;> rw [hrun] at after
    · obtain ⟨l, conducts⟩ := after
      exact ⟨l, conducts, fun r hr => absurd hr (by simp)⟩
    · obtain ⟨l, conducts, bears, result⟩ := after
      exact ⟨l, conducts, fun r' hr => by
        obtain rfl : r = r' := Option.some.inj hr
        exact ⟨bears, result⟩⟩
  obtain ⟨acts, hacts, trace⟩ := conducts.trace
  have balanced := Accounted.start s.build root
  refine ⟨acts, l, hacts, trace.eq_replay, conducts.build, fun moment hm => ?_, fun r hr => ?_⟩
  · have sofar := trace.moment hm
    exact ⟨balanced.trace sofar, (Ledger.served_eq sofar).trans (add_zero _)⟩
  · obtain ⟨bears, result⟩ := ended r hr
    have final := balanced.trace trace
    have flights : l.flights = 0 := bears.1
    have waiting : l.waiting = l.build.waiting := by rw [Ledger.waiting, flights, add_zero]
    have balance := final.slots.balance
    rw [waiting] at balance
    refine ⟨bears, fun a ha hs => ?_, fun registry hok => ?_, fun names herr => ?_⟩
    · rw [balance] at ha
      obtain ⟨f, hf, rfl⟩ := Multiset.mem_map.mp ((Multiset.mem_add.mp ha).resolve_left hs)
      exact ⟨f, hf, rfl, Build.mem_buildingNames_of_waiting hf⟩
    · cases hu : l.build.unsettled ((k.pass steps root).run s).2.heap with
      | none => rw [balance, waiting_of_settled hu, Multiset.map_zero, add_zero]
      | some names =>
          rw [hok, hu] at result
          exact absurd result (by simp)
    · cases hu : l.build.unsettled ((k.pass steps root).run s).2.heap with
      | none =>
          rw [herr, hu] at result
          exact absurd result (by simp)
      | some left =>
          rw [herr, hu] at result
          obtain rfl : names = left := by simpa using result
          exact unsettled_ne_nil final flights hu

end Container

end ObjectGraph
