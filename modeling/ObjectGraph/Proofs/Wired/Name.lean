import ObjectGraph.Proofs.Wired.Node

/-!
# `Proofs.Wired.Name` — building names in a world

To get the value of a name that has none is to build it: the name begins, its data is built, and then it is
built, or parked, or given up. A name is given up only if its chain of references ends in nothing, and then
nobody waits for it. So whatever refers to the name gets what stands for that: what the name is built to,
a placeholder, or nothing if the name is barren.

With this the operations of the container lead from world to world however many steps they have
(`machine_builds`).

Contents:
* `cost_begin`, `Ready.begin`, `Advance.of_begin`;
* `Container.current_wires`, `abandon_wires`, `giveUp_wires`;
* `buildNamed_wires`, `tryGetNamed_wires`, `portal_wires`;
* `machine_builds`.
-/

namespace ObjectGraph

open Relation (TransGen)
open Run (After Quiet)

namespace PlainRoot

variable {k : Container} {R : PlainRoot k} {m : Machine} {w w' : World} {s t u : Session} {n : String} {j : Json}

/-! ## A name begins -/

theorem isSome_stateOf?_begin : ((s.acted (.begin n)).build.stateOf? n).isSome := by
  show ((s.build.apply (.begin n)).stateOf? n).isSome
  rw [Build.stateOf?_begin, if_pos rfl]
  rfl

/-- With a name that begins there are fewer steps to take, by more than what is built for it may need. -/
theorem cost_begin (hn : s.build.stateOf? n = none) (hm : (R.members.lookup n).isSome) :
    R.cost (s.acted (.begin n)) + ((Json.object R.members).depth + 2) ≤ R.cost s := by
  obtain ⟨j, hj⟩ := Option.isSome_iff_exists.mp hm
  have less : R.room (s.acted (.begin n)) < R.room s := by
    refine countP_lt (Table.mem_of_lookup hj) ?_ ?_ fun e he => ?_
    · show ((s.build.apply (.begin n)).stateOf? n).isNone = false
      rw [Build.stateOf?_begin, if_pos rfl]
      rfl
    · rw [hn]
      rfl
    · change ((s.build.apply (.begin n)).stateOf? e.1).isNone = true at he
      rw [Build.stateOf?_begin] at he
      split at he
      · exact absurd he (by simp)
      · exact he
  have more := Nat.mul_le_mul_right ((Json.object R.members).depth + 2) (Nat.succ_le_of_lt less)
  rw [Nat.succ_mul] at more
  unfold cost
  omega

/-- What a flat name leads to is flat. -/
theorem not_flat_of_container (hj : R.members.lookup n = some j) (hc : j.isContainer = true)
    (hn : ¬ Nothing k.types (some j)) : ¬ R.Flat n := by
  intro hf
  cases hf with
  | here hP =>
      rw [hj] at hP
      rcases hP with hP | ⟨i, hi, hs⟩
      · exact hn hP
      · exact absurd (hs.1.symm.trans (Option.some.inj hi ▸ hc)) Bool.false_ne_true
  | link hl _ =>
      obtain ⟨str, hs, -⟩ := hl
      obtain rfl := Option.some.inj (hj.symm.trans hs)
      exact absurd hc Bool.false_ne_true

/-- The data of a name that begins may be built. -/
theorem Ready.begin (ho : R.Open n s) (hj : R.members.lookup n = some j) : R.Ready j (s.acted (.begin n)) := by
  have before : ∀ d ws, d ≠ n → (s.acted (.begin n)).build.stateOf? d = some (.building ws) →
      s.build.stateOf? d = some (.building ws) := by
    intro d ws hd hs
    change (s.build.apply (.begin n)).stateOf? d = _ at hs
    rwa [Build.stateOf?_begin, if_neg hd] at hs
  refine ⟨fun str l he hr d ws hd hs => ?_, fun hc => ?_⟩
  · have link : Link R.members n l := ⟨str, he ▸ hj, hr⟩
    by_cases hdn : d = n
    · exact hdn ▸ .single link
    · exact .tail (ho d ws hd (before d ws hdn hs)) link
  · refine or_iff_not_imp_left.mpr fun hnothing d ws hd hs => ?_
    have flat := not_flat_of_container hj hc hnothing
    have other : d ≠ n := by
      rintro rfl
      exact flat hd
    exact flat (hd.of_transGen (ho d ws hd (before d ws other hs)))

/-- A name has begun and the container has gone on from there; the name is through, or may be waited for. -/
theorem Advance.of_begin (h : R.Advance none (some (n, [])) (w.begin R.Flat n) (s.acted (.begin n)) w' u)
    (hn : s.build.stateOf? n = none) (hheap : t.heap = u.heap)
    (hsame : ∀ l, l ≠ n → t.build.stateOf? l = u.build.stateOf? l)
    (hthrough : ∀ ws, R.Flat n → t.build.stateOf? n ≠ some (.building ws)) : R.Advance none none w s w' t where
  le := World.Le.trans (w.le_begin R.Flat n) h.le
  kept l hl := by
    have other : l ≠ n := by
      rintro rfl
      rw [hn] at hl
      exact absurd hl (by simp)
    rw [hsame l other]
    refine h.kept l ?_
    show ((s.build.apply (.begin n)).stateOf? l).isSome
    rw [Build.stateOf?_begin, if_neg other]
    exact hl
  calm l ws hf hl := by
    have other : l ≠ n := by
      rintro rfl
      exact hthrough ws hf hl
    rw [hsame l other] at hl
    obtain ⟨ws', hs⟩ := h.calm l ws hf hl
    change (s.build.apply (.begin n)).stateOf? l = _ at hs
    rw [Build.stateOf?_begin, if_neg other] at hs
    exact ⟨ws', hs⟩
  length := by
    rw [hheap]
    exact h.length
  visited := h.visited
  settled := h.settled
  made o ho ho' := h.made o ho (hheap ▸ ho')
  -- what is made for the name itself is made for one that had no state
  lodged o p ms hp := by
    rcases h.lodged o p ms hp with hp | ⟨q, hq, below⟩ | hp
    · exact .inl hp
    · obtain rfl : (n, []) = q := Option.some.inj hq
      exact .inr (.inr (below.1 ▸ hn))
    · change (s.build.apply (.begin n)).stateOf? p.1 = none at hp
      rw [Build.stateOf?_begin] at hp
      split at hp
      · exact absurd hp (by simp)
      · exact .inr (.inr hp)

/-! ## The end of a name -/

/-- What a name has when it is through, or may be waited for, stands for a reference to it. -/
theorem current_wires (hs : R.Standing w s) (hthere : (s.build.stateOf? n).isSome)
    (hthrough : (w.built n).isSome ∨ ¬ R.Flat n) {cut : Session → Prop} :
    After (Container.current n) s
      (fun v t => t = s ∧ ∀ h str, Refers str n → R.Realizes w h (.string str) v) cut := by
  unfold Container.current
  rw [Run.after_bind, Run.after_build]
  split
  next hnone =>
    rw [hnone] at hthere
    exact absurd hthere (by simp)
  next v hv => exact ⟨rfl, fun h str hr => .built hr ((hs.named.built n v).mpr hv)⟩
  next ws hws =>
    refine ⟨rfl, fun h str hr => .waiting hr ((hs.named.begun n).mpr ⟨hthere, ?_⟩)⟩
    refine hthrough.resolve_left fun hb => ?_
    obtain ⟨v, hv⟩ := Option.isSome_iff_exists.mp hb
    exact absurd (((hs.named.built n v).mp hv).symm.trans hws) (by simp)

/-- Nobody waits for a barren name that is given up. -/
theorem abandon_wires (hs : R.Standing w s) (hb : Barren k.types R.members n) (hn : w.built n = none) (hops : Nat)
    {cut : Session → Prop} :
    After (Container.abandon m hops n) s (fun _ t => t = s.acted (.abandon n) ∧ R.Standing w t) cut := by
  unfold Container.abandon
  rw [Run.after_bind, Run.after_build, Run.after_bind, Run.after_act, hs.named.unawaited n hb.flat]
  exact ⟨rfl, hs.abandon hb hn⟩

/-- A name that nothing is built for is given up, and no reference to it stands for anything. -/
theorem giveUp_wires (hadv : R.Advance none (some (n, [])) (w.begin R.Flat n) (s.acted (.begin n)) w' u)
    (hn : s.build.stateOf? n = none) (hj : R.members.lookup n = some j) (hb : u.Bears (.ofName n))
    (hs : R.Standing w' u) (hnone : R.Realizes w' (n, []) j none) (hops : Nat)
    {r : Except BuildError (Option Value)} (hr : r.toOption.join = none) {cut : Session → Prop} :
    After (Container.abandon m hops n >>= fun _ => (pure r : Run (Except BuildError (Option Value)))) u
      (fun r => R.Leads none none w s fun w' => ∀ h str, Refers str n → R.Realizes w' h (.string str) r.toOption.join)
      cut := by
  have barren := hnone.barren_of_none hj rfl
  obtain ⟨ws, hws⟩ := hb.building
  have unbuilt := hs.named.built_eq_none fun v hv => absurd (hws.symm.trans hv) (by simp)
  rw [Run.after_bind]
  refine (abandon_wires hs barren unbuilt hops).mono (fun _ t ht => ?_) fun _ => id
  obtain ⟨rfl, ht⟩ := ht
  have states := u.build.stateOf?_abandon n
  refine ⟨w', hadv.of_begin hn rfl (fun l hl => ?_) (fun ws _ => ?_), ht, fun h str hstr => ?_⟩
  · exact (states l).trans (if_neg hl)
  · show (u.build.apply (.abandon n)).stateOf? n ≠ _
    rw [states n, if_pos rfl]
    simp
  · rw [hr]
    exact .barren hstr barren

/-! ## Names -/

/-- The data of a name that is reached may be built. -/
theorem fit_of_lookup (hj : R.members.lookup n = some j) (hr : R.Reached n) : R.Fit j := by
  refine ⟨?_, fun l hl => .mention hr hj hl⟩
  by_cases hclass : n = Container.classKey
  -- the class of the root itself is a text that stands for itself
  · subst hclass
    cases R.plain with
    | object nodup keys hint entries =>
        obtain ⟨text, rfl, unprefixed, -⟩ := hint j (Table.mem_of_lookup hj)
        exact .text unprefixed
  · exact R.plain.of_entryOf? ((if_neg hclass).trans hj)

/-- Nothing has been made yet for a name that begins. -/
theorem vacant_begin (hs : R.Standing w s) (hn : s.build.stateOf? n = none) :
    (w.begin R.Flat n).Vacant (s.acted (.begin n)) (n, []) where
  begun := isSome_stateOf?_begin
  vacant o p ms hp below := by
    have state := hs.lodged.begun o p ms hp
    rw [show p.1 = n from below.1, hn] at state
    exact absurd state Bool.false_ne_true

/-- A name that has no value is built, and what it has then stands for a reference to it. -/
theorem buildNamed_wires (hm : R.Builds m) (hd : R.Delivers m) (ha : m.Accounts) (hops : Nat) (hname : IsName n)
    (hj : R.members.lookup n = some j) (hr : R.Reached n) (hn : s.build.stateOf? n = none)
    (hb : s.Bears .nothing) (hs : R.Standing w s) (ho : R.Open n s) :
    After (k.buildNamed m hops R.root n) s
      (fun r => R.Leads none none w s fun w' => ∀ h str, Refers str n → R.Realizes w' h (.string str) r.toOption.join)
      fun _ => m.steps + 1 < R.cost s := by
  have there : (R.members.lookup n).isSome := by
    rw [hj]
    rfl
  have less := cost_begin hn there
  have deep := Json.depth_lt_of_child? (j := .object R.members) hj
  have begun := hs.begin hn there hr
  have inHand := Settles.bears (Container.begin_settles hn) hb
  have value : accounting.Carries (.ofName n) (.ofName n) (k.buildValue m hops R.root n .any none n) :=
    accounting.of_within (Container.buildValue_carries ha.within hops R.root n .any none n) rfl
  have ready := Ready.begin ho hj
  have built := fun t (ht : Quiet (s.acted (.begin n)) t) =>
    (buildValue_wires hm hops ⟨R.data, rfl⟩ hname (d := .object R.members) hj (fit_of_lookup hj hr) (h := (n, [])) hj n
      (Session.Bears.nothing (inHand.quiet ht)) (begun.idle (.of_quiet ht))
      (Idle.vacant (.of_quiet ht) (vacant_begin hs hn))
      ⟨fun str l he hl => (ready.reference str l he hl).quiet ht, fun hc =>
        (ready.node hc).imp id fun clear => clear.idle (.of_quiet ht)⟩).bears value (inHand.quiet ht)
  unfold Container.buildNamed
  rw [Run.after_bind, Run.after_act, Run.after_bind, Run.after_report, Run.after_bind]
  refine After.mono (built _ ?quiet) (fun r u hu => ?_) fun _ hcut => ?_
  case quiet => exact ⟨rfl, rfl, rfl⟩
  · obtain ⟨hb', w', hadv, hs', hv⟩ := hu
    -- whatever is built for the name, the container goes on from a world in which the name has begun
    have hadv : R.Advance none (some (n, [])) (w.begin R.Flat n) (s.acted (.begin n)) w' u := by
      refine Advance.trans (.idle (.of_quiet ?_)) hadv
      exact ⟨rfl, rfl, rfl⟩
    rcases r with e | _ | v
    · exact giveUp_wires hadv hn hj hb' hs' hv hops rfl
    · exact giveUp_wires hadv hn hj hb' hs' hv hops rfl
    · show After (Container.settleName m hops n v >>= fun _ => Container.current n >>= fun v =>
        (pure (.ok v) : Run (Except BuildError (Option Value)))) u _ _
      rw [Run.after_bind]
      refine (settleName_wires hd ha hops hb' hs' hj hv).mono (fun _ t ht => ?_) fun _ hcut => ?_
      · obtain ⟨w'', hadv', hs'', hthrough⟩ := ht
        have hadv'' := hadv.trans hadv'.anywhere
        rw [Run.after_bind]
        refine (current_wires hs'' (hadv''.kept n isSome_stateOf?_begin) hthrough).mono (fun v t' ht' => ?_) fun _ => id
        obtain ⟨rfl, hv⟩ := ht'
        refine ⟨w'', hadv''.of_begin hn rfl (fun _ _ => rfl) (fun ws hf hws => ?_), hs'', hv⟩
        obtain ⟨x, hx⟩ := Option.isSome_iff_exists.mp (hthrough.resolve_right fun h => h hf)
        exact absurd (((hs''.named.built n x).mp hx).symm.trans hws) (by simp)
      · have enough := lt_cost (s := s.acted (.begin n)) hcut
        omega
  · change m.steps < R.cost (s.acted (.begin n)) + j.depth at hcut
    omega

/-- What the container has for a name stands for a reference to it. -/
theorem tryGetNamed_wires (hm : R.Builds m) (hd : R.Delivers m) (ha : m.Accounts) (hops : Nat) (hname : IsName n)
    (hr : R.Reached n) (hb : s.Bears .nothing) (hs : R.Standing w s) (ho : R.Open n s) :
    After (k.tryGetNamed m hops n) s
      (fun r => R.Leads none none w s fun w' => ∀ h str, Refers str n → R.Realizes w' h (.string str) r.toOption.join)
      fun _ => m.steps + 1 < R.cost s := by
  unfold Container.tryGetNamed
  rw [Run.after_bind, Run.after_build]
  split
  next v hv => exact ⟨w, .refl w s, hs, fun h str hstr => .built hstr ((hs.named.built n v).mpr hv)⟩
  next ws hws =>
    rw [Run.after_bind, Run.after_report, Run.after_pure]
    have flat : ¬ R.Flat n := fun hf => hf.not_cycle (ho n ws hf hws)
    have begun : w.begun n := (hs.named.begun n).mpr ⟨by rw [hws]; rfl, flat⟩
    have leads : R.Leads none none w s
        (fun w' => ∀ h str, Refers str n → R.Realizes w' h (.string str) (some (.pending ⟨n, none⟩))) s :=
      ⟨w, .refl w s, hs, fun h str hstr => .waiting hstr begun⟩
    exact leads.idle (.of_quiet ⟨rfl, rfl, rfl⟩)
  next hn =>
    rw [hs.named.root]
    dsimp only
    rw [Configuration.has_of_isName hname, R.data]
    cases hj : R.members.lookup n with
    | none =>
        have absent : ((Json.object R.members).child? n).isSome = false := by
          show (R.members.lookup n).isSome = false
          rw [hj]
          rfl
        rw [absent, if_neg Bool.false_ne_true]
        exact ⟨w, .refl w s, hs, fun h str hstr => .barren hstr (.here (.inl hj))⟩
    | some j =>
        have present : ((Json.object R.members).child? n).isSome = true := by
          show (R.members.lookup n).isSome = true
          rw [hj]
          rfl
        rw [present, if_pos rfl]
        exact buildNamed_wires hm hd ha hops hname hj hr hn hb hs ho

/-- What a reference to a name means to the container stands for it. -/
theorem portal_wires (hm : R.Builds m) (hd : R.Delivers m) (ha : m.Accounts) (hops : Nat) (hname : IsName n)
    (hr : R.Reached n) (hb : s.Bears .nothing) (hs : R.Standing w s) (ho : R.Open n s) :
    After (k.portal m .named hops (.simple "named" n) []) s
      (fun o => R.Leads none none w s fun w' => ∀ h str, Refers str n → R.Realizes w' h (.string str) o.toOption.join)
      fun _ => m.steps + 1 < R.cost s := by
  unfold Container.portal
  show After (k.tryGetNamed m hops n >>= _) s _ _
  rw [Run.after_bind]
  refine (tryGetNamed_wires hm hd ha hops hname hr hb hs ho).mono (fun r t ht => ?_) fun _ => id
  rcases r with e | _ | v
  · exact ht
  · exact ht
  · exact ht

/-- The container's machine builds, with any number of steps. -/
theorem machine_builds (R : PlainRoot k) (n : Nat) : R.Builds (k.machine n) := by
  induction n with
  | zero =>
      refine ⟨fun hops n w s _ _ _ _ _ => Nat.succ_pos _, fun hops c j h context w s _ _ _ _ _ _ _ _ => ?_⟩
      exact Nat.lt_of_lt_of_le (Nat.succ_pos _) (Nat.le_add_right _ _)
  | succ n ih =>
      have delivers := machine_delivers R n
      have accounts := Container.machine_accounts k n
      refine ⟨fun hops l w s hname hr hb hs ho => ?_, fun hops c j h context w s hc hp hat hj hb hs hvacant hr => ?_⟩
      · refine (portal_wires ih delivers accounts hops hname hr hb hs ho).mono (fun _ _ => id) fun _ hcut => ?_
        rw [Container.steps_machine] at hcut ⊢
        exact hcut
      · refine (buildNode_wires ih delivers accounts hops hc hp hat hj context hb hs hvacant hr).mono (fun _ _ => id)
          fun _ hcut => ?_
        rw [Container.steps_machine] at hcut ⊢
        exact hcut

end PlainRoot

end ObjectGraph
