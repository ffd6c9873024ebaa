import Mathlib.Logic.Relation
import ObjectGraph.Build.Wiring
import ObjectGraph.Proofs.Keys
import ObjectGraph.Proofs.Paths

/-!
# `Proofs.Projecting` — projecting a placeholder is following a path later

A placeholder takes the paths that are followed from it and joins them to one text, which is split again when its
name has a value. That comes to the same as following the paths then, one after the other: a walk along a path of
two parts goes on from where the first part leads. In general a walk that stops there resolves the text it stands
at, and makes a node of raw data. In a value that no node or resource is part of there is nothing to resolve, so a
walk may stop anywhere and go on.

Contents:
* `Heap.Gives`, `Heap.Made`: values of which no node or resource is part;
* `locate_made`, `atPath_join`: following a path of two parts in such a value;
* `Pending.delivered`, `Container.fill`, `deliver_eq`; `Value.trail`, a chain of paths;
* `Pending.SolidPath`, `project_eq`, `delivered_project`, `trail_pending`, `delivered_trail`;
* `deliver_project`.
-/

namespace ObjectGraph

open ObjectGraph.Configuration (readOn)

/-! ## Values without nodes -/

/-- A value is one step of a path from another. A component may read more names than those of its properties. -/
inductive Heap.Gives (h : Heap) : Value → Value → Prop
  | item {items : List Value} {v : Value} (hv : v ∈ items) : Gives h (.list items) v
  | entry {entries : List (String × Value)} {k : String} {v : Value} (hv : (k, v) ∈ entries) :
      Gives h (.map entries) v
  | property {o : ObjectId} {name : String} {v : Value} (hv : h.get? o name = some v) : Gives h (.object o) v

/-- Neither a configuration nor a resource. -/
def Value.Basic : Value → Prop
  | .configuration _ | .resource _ => False
  | _ => True

/-- A value is made of scalars, lists, maps, components and placeholders, and so is what its components read,
wherever they lead. -/
def Heap.Made (h : Heap) (v : Value) : Prop := ∀ w, Relation.ReflTransGen h.Gives v w → w.Basic

namespace Heap.Made

variable {h : Heap} {v w : Value}

theorem basic (made : h.Made v) : v.Basic := made v .refl

theorem step (made : h.Made v) (gives : h.Gives v w) : h.Made w := fun x hx => made x (.head gives hx)

/-- A set of values that no step leads out of is made of what is in it. -/
theorem of_closed {S : Value → Prop} (basic : ∀ x, S x → x.Basic) (closed : ∀ x y, S x → h.Gives x y → S y)
    (hv : S v) : h.Made v := by
  intro w hw
  refine basic w ?_
  induction hw with
  | refl => exact hv
  | tail _ gives ih => exact closed _ _ ih gives

end Heap.Made

namespace Configuration

variable {resolve : Resolver} {s : Session} {v : Value}

/-- A step from a value without nodes leads to another, if it does not end the walk. -/
theorem step_made (made : s.heap.Made v) {segment : String} {rest : List String} {move : Move}
    (stepped : step s.heap segment rest (.value v) = some move) :
    (∃ w, move = .stop w) ∨ ∃ w, move = .go (.value w) ∧ s.heap.Made w := by
  have goes : ∀ {found : Option Value}, (found.map fun w => Move.go (.value w)) = some move →
      (∀ w, found = some w → s.heap.Gives v w) → ∃ w, move = .go (.value w) ∧ s.heap.Made w := by
    intro found moved gives
    obtain ⟨w, hw, rfl⟩ := Option.map_eq_some_iff.mp moved
    exact ⟨w, rfl, made.step (gives w hw)⟩
  change stepValue s.heap v segment rest = some move at stepped
  unfold stepValue at stepped
  split at stepped
  · exact .inl ⟨v, (Option.some.inj stepped).symm⟩
  · cases v with
    | configuration => exact made.basic.elim
    | resource => exact made.basic.elim
    | pending p => exact .inl ⟨_, (Option.some.inj stepped).symm⟩
    | map entries => exact .inr (goes stepped fun w hw => .entry (Table.mem_of_lookup hw))
    | list items =>
        refine .inr (goes stepped fun w hw => ?_)
        obtain ⟨i, -, hi⟩ := Option.bind_eq_some_iff.mp hw
        exact .item (List.mem_of_getElem? hi)
    | object o => exact .inr (goes stepped fun w hw => .property hw)
    | _ => exact absurd stepped (by simp)

/-- In a value without nodes a walk stands at a value, and has changed nothing. -/
theorem locate_made (made : s.heap.Made v) (segs : List String) :
    ∃ found : Option Value, (locate resolve segs (.value v)).run s = (some (found.map .value), s) := by
  induction segs generalizing v with
  | nil => exact ⟨some v, rfl⟩
  | cons segment rest ih =>
      have settled : settle resolve (.value v) = pure (some (.value v)) := rfl
      have here : Run.heap.run s = (some s.heap, s) := rfl
      rw [locate, settled, pure_bind]
      dsimp only
      rw [Run.run_bind, here]
      dsimp only
      cases stepped : step s.heap segment rest (.value v) with
      | none => exact ⟨none, rfl⟩
      | some move =>
          obtain ⟨w, rfl⟩ | ⟨w, rfl, hw⟩ := step_made made stepped
          · exact ⟨some w, rfl⟩
          · exact ih hw

/-- Following a path of two parts in a value without nodes is following the first and then the second. -/
theorem atPath_join (env : Surroundings) (hops : Nat) (made : s.heap.Made v) {q r : String} (hq : Solid q)
    (hr : Solid r) :
    (v.atPath env hops (q ++ "." ++ r)).run s
      = (v.atPath env hops q >>= readOn fun w => w.atPath env hops r).run s := by
  obtain ⟨next, rest, hs⟩ := List.exists_cons_of_ne_nil (segments_ne_nil r)
  have hn : next ≠ "" := hr next (hs ▸ List.mem_cons_self)
  simp only [Value.atPath, follow, segments_join, hs, walk_append hq hn rest, walk_eq_locate (segments q),
    bind_assoc]
  refine Run.run_bind_congr_right fun found t ended => ?_
  obtain ⟨w, stands⟩ := @locate_made (resolveText env hops) s v made (segments q)
  obtain ⟨rfl, rfl⟩ : w.map .value = found ∧ s = t := by
    rw [Run.ended_iff, stands] at ended
    simpa using ended
  cases w with
  | none => rfl
  | some w => rfl

end Configuration

/-! ## Placeholders and their values -/

/-- A placeholder has no path, or one that leads somewhere with each of its segments. -/
def Pending.SolidPath (p : Pending) : Prop := ∀ path, p.path = some path → Solid path

/-- What is delivered to a placeholder when its name has a value. -/
def Pending.delivered (env : Surroundings) (hops : Nat) (p : Pending) (v : Value) : Run (Option Value) :=
  match p.path with
  | some path => v.atPath env hops path
  | none => return some v

/-- The value at the end of a chain of paths, each followed from where the one before leads. -/
def Value.trail (env : Surroundings) (hops : Nat) : List String → Value → Run (Option Value)
  | [], v => return some v
  | q :: qs, v => v.atPath env hops q >>= readOn (trail env hops qs)

/-- Puts what is delivered in the place of a placeholder. -/
def Container.fill (k : Container) (m : Machine) (hops : Nat) (slot : Slot) (place : List Place)
    (v : Option Value) : Run Unit :=
  match slot with
  | .property i => fillProperty k i place v
  | .name i => fillName m hops i place v

/-- Delivering a value to a placeholder is following its path and putting what is there in its place. -/
theorem Container.deliver_eq (k : Container) (m : Machine) (hops : Nat) (slot : Slot) (place : List Place)
    (p : Pending) (v : Value) :
    k.deliver m hops ⟨slot, place, p.path⟩ (some v)
      = p.delivered (k.surroundings m) hops v >>= k.fill m hops slot place := by
  obtain ⟨name, path⟩ := p
  cases path <;> cases slot <;> rfl

theorem Solid.ne_empty {path : String} (h : Solid path) : path ≠ "" := by
  rintro rfl
  exact absurd h (by decide +kernel)

theorem Solid.join {q r : String} (hq : Solid q) (hr : Solid r) : Solid (q ++ "." ++ r) := by
  intro segment hs
  rw [Configuration.segments_join, List.mem_append] at hs
  exact hs.elim (hq segment) (hr segment)

namespace Pending

variable {env : Surroundings} {hops : Nat} {s : Session} {v : Value} {p : Pending} {q : String}

/-- A path that has been projected is one that has been joined. -/
theorem project_eq (hq : q ≠ "") (p : Pending) :
    p.project q = ⟨p.name, some (p.path.elim q fun path => path ++ "." ++ q)⟩ := by
  obtain ⟨name, path⟩ := p
  cases path with
  | none => exact make_of_ne name hq
  | some path =>
      have joined : path ++ "." ++ q ≠ "" := by simp
      show make name (some (if q = "" then path else path ++ "." ++ q)) = _
      rw [if_neg hq, make_of_ne name joined]
      rfl

theorem name_project (p : Pending) (q : String) : (p.project q).name = p.name := by
  unfold project
  split <;> rfl

theorem name_foldl_project (qs : List String) (p : Pending) : (qs.foldl project p).name = p.name := by
  induction qs generalizing p with
  | nil => rfl
  | cons q qs ih => rw [List.foldl_cons, ih, name_project]

theorem SolidPath.project (hp : p.SolidPath) (hq : Solid q) : (p.project q).SolidPath := by
  intro path hpath
  rw [project_eq hq.ne_empty, Option.some_inj] at hpath
  subst hpath
  cases hpp : p.path with
  | none => exact hq
  | some path => exact (hp path hpp).join hq

/-- What is delivered to a placeholder that has been projected is found by following the path from what is delivered
to the placeholder. -/
theorem delivered_project (made : s.heap.Made v) (hp : p.SolidPath) (hq : Solid q) :
    ((p.project q).delivered env hops v).run s
      = (p.delivered env hops v >>= readOn fun w => w.atPath env hops q).run s := by
  rw [project_eq hq.ne_empty]
  cases hpath : p.path with
  | none =>
      rw [delivered, delivered, hpath]
      rfl
  | some path =>
      rw [delivered, delivered, hpath]
      exact Configuration.atPath_join env hops made (hp path hpath) hq

/-- A chain of paths from a placeholder projects it by each of them. -/
theorem trail_pending {qs : List String} (hqs : ∀ q ∈ qs, Solid q) (p : Pending) :
    (Value.pending p).trail env hops qs = pure (some (.pending (qs.foldl project p))) := by
  induction qs generalizing p with
  | nil => rfl
  | cons q qs ih =>
      have hq := hqs q List.mem_cons_self
      rw [Value.trail, Value.atPath_pending, if_neg hq.ne_empty, pure_bind, readOn,
        ih (fun r hr => hqs r (List.mem_cons_of_mem _ hr))]
      rfl

/-- What is delivered to a placeholder that has been projected by a chain of paths. -/
theorem delivered_trail (made : s.heap.Made v) {qs : List String} (hqs : ∀ q ∈ qs, Solid q) (hp : p.SolidPath) :
    ((qs.foldl project p).delivered env hops v).run s
      = (p.delivered env hops v >>= readOn (Value.trail env hops qs)).run s := by
  induction qs generalizing p with
  | nil =>
      have same : readOn (Value.trail env hops []) = (pure : Option Value → Run (Option Value)) := by
        funext found
        cases found <;> rfl
      rw [same, bind_pure]
      rfl
  | cons q qs ih =>
      have hq := hqs q List.mem_cons_self
      have chained : (p.delivered env hops v >>= readOn (Value.trail env hops (q :: qs)))
          = (p.delivered env hops v >>= readOn fun w => w.atPath env hops q) >>=
              readOn (Value.trail env hops qs) := by
        rw [bind_assoc]
        refine bind_congr fun found => ?_
        cases found <;> rfl
      rw [List.foldl_cons, ih (fun r hr => hqs r (List.mem_cons_of_mem _ hr)) (hp.project hq), chained]
      exact Run.run_bind_congr_left (delivered_project made hp hq) _

end Pending

namespace Container

variable {s : Session} {v : Value} {p : Pending}

/-- Projecting a placeholder commutes with delivering a value without nodes to it. Delivering the value to the
placeholder projected by a path is delivering it to the placeholder and following the path from there. A chain of
paths from the placeholder gives one for the same name, to which is delivered what the chain leads to from what is
delivered to the placeholder. And following two paths joined is following one and then the other. -/
theorem deliver_project (k : Container) (m : Machine) (hops : Nat) (made : s.heap.Made v) (hp : p.SolidPath) :
    (∀ slot place, (k.deliver m hops ⟨slot, place, p.path⟩ (some v)).run s
      = (p.delivered (k.surroundings m) hops v >>= k.fill m hops slot place).run s) ∧
    (∀ q, Solid q → (p.project q).name = p.name ∧
      ∀ slot place, (k.deliver m hops ⟨slot, place, (p.project q).path⟩ (some v)).run s
        = (p.delivered (k.surroundings m) hops v >>= readOn (fun w => w.atPath (k.surroundings m) hops q) >>=
            k.fill m hops slot place).run s) ∧
    (∀ qs, (∀ q ∈ qs, Solid q) → ∃ p' : Pending, p'.name = p.name ∧
      (Value.pending p).trail (k.surroundings m) hops qs = pure (some (.pending p')) ∧
      (p'.delivered (k.surroundings m) hops v).run s
        = (p.delivered (k.surroundings m) hops v >>= readOn (Value.trail (k.surroundings m) hops qs)).run s ∧
      ∀ slot place, (k.deliver m hops ⟨slot, place, p'.path⟩ (some v)).run s
        = (p.delivered (k.surroundings m) hops v >>= readOn (Value.trail (k.surroundings m) hops qs) >>=
            k.fill m hops slot place).run s) ∧
    ∀ q r, Solid q → Solid r → (v.atPath (k.surroundings m) hops (q ++ "." ++ r)).run s
      = (v.atPath (k.surroundings m) hops q >>= readOn fun w => w.atPath (k.surroundings m) hops r).run s := by
  refine ⟨fun slot place => ?_, fun q hq => ⟨?_, fun slot place => ?_⟩, fun qs hqs => ?_, fun q r hq hr => ?_⟩
  · rw [deliver_eq]
  · exact Pending.name_project p q
  · rw [deliver_eq]
    exact Run.run_bind_congr_left (Pending.delivered_project made hp hq) _
  · refine ⟨qs.foldl Pending.project p, ?_, Pending.trail_pending hqs p, Pending.delivered_trail made hqs hp,
      fun slot place => ?_⟩
    · exact Pending.name_foldl_project qs p
    · rw [deliver_eq]
      exact Run.run_bind_congr_left (Pending.delivered_trail made hqs hp) _
  · exact Configuration.atPath_join _ _ made hq hr

/-- Two components, of which one has the other in a list beside a placeholder, and the other has the first. -/
def knot : Session :=
  { Session.start with
    heap := [.fresh .record [("items", .list [.object 1, .pending ⟨"b", none⟩])],
      .fresh .record [("owner", .object 0), ("label", .string "x")]] }

theorem made_knot : knot.heap.Made (.object 0) := by
  refine Heap.Made.of_closed (S := fun x => x = .object 0 ∨ x = .object 1 ∨ x = .pending ⟨"b", none⟩ ∨
    x = .string "x" ∨ x = .list [.object 1, .pending ⟨"b", none⟩]) ?_ ?_ (.inl rfl)
  · rintro x (rfl | rfl | rfl | rfl | rfl) <;> trivial
  · rintro x y (rfl | rfl | rfl | rfl | rfl) gives
    · obtain ⟨⟩ | ⟨⟩ | @⟨_, name, _, hv⟩ := gives
      have there : (name, y) ∈ [("items", Value.list [.object 1, .pending ⟨"b", none⟩])] := Table.mem_of_lookup hv
      obtain ⟨-, rfl⟩ := Prod.mk.inj (List.mem_singleton.mp there)
      exact .inr (.inr (.inr (.inr rfl)))
    · obtain ⟨⟩ | ⟨⟩ | @⟨_, name, _, hv⟩ := gives
      have there : (name, y) ∈ [("owner", Value.object 0), ("label", .string "x")] := Table.mem_of_lookup hv
      simp only [List.mem_cons, Prod.mk.injEq, List.not_mem_nil, or_false] at there
      obtain ⟨-, rfl⟩ | ⟨-, rfl⟩ := there
      · exact .inl rfl
      · exact .inr (.inr (.inr (.inl rfl)))
    · cases gives
    · cases gives
    · obtain hv | ⟨⟩ | ⟨⟩ := gives
      simp only [List.mem_cons, List.not_mem_nil, or_false] at hv
      obtain rfl | rfl := hv
      · exact .inr (.inl rfl)
      · exact .inr (.inr (.inl rfl))

/-- A container that constructs nothing. -/
def bare : Container := ⟨.bare, .empty, .standard⟩

/-- The placeholder for the first item of a component is projected by a path that leads round through both
components, and to the text in the end. -/
theorem deliver_project_knot :
    knot.heap.Made (.object 0) ∧
      Pending.SolidPath ⟨"a", some "items.0"⟩ ∧
      Solid "owner.items.0.label" ∧
      (∀ slot place, (bare.deliver .exhausted Configuration.depthLimit
            ⟨slot, place, (Pending.project ⟨"a", some "items.0"⟩ "owner.items.0.label").path⟩
            (some (.object 0))).run knot
        = (Pending.delivered (bare.surroundings .exhausted) Configuration.depthLimit ⟨"a", some "items.0"⟩
              (.object 0) >>=
            readOn (fun w => w.atPath (bare.surroundings .exhausted) Configuration.depthLimit
              "owner.items.0.label") >>=
            bare.fill .exhausted Configuration.depthLimit slot place).run knot) ∧
      ((Pending.delivered (bare.surroundings .exhausted) Configuration.depthLimit
          (Pending.project ⟨"a", some "items.0"⟩ "owner.items.0.label") (.object 0)).run knot).1.map
            (·.bind Value.string?) = some (some "x") := by
  have path : Pending.SolidPath ⟨"a", some "items.0"⟩ := by
    rintro _ ⟨⟩
    decide +kernel
  have further : Solid "owner.items.0.label" := by decide +kernel
  obtain ⟨-, projects, -, -⟩ := deliver_project bare .exhausted Configuration.depthLimit made_knot path
  exact ⟨made_knot, path, further, (projects _ further).2, by decide +kernel⟩

end Container

end ObjectGraph
