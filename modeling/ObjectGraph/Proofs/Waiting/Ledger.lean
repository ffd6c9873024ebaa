import Mathlib.Algebra.BigOperators.Group.Multiset.Basic
import Mathlib.Tactic.Abel
import ObjectGraph.Build.State
import ObjectGraph.Proofs.Place

/-!
# `Proofs.Waiting.Ledger` — an account of who waits for what

The tables of a container say which placeholders wait for which names and how many each parked value waits
for. They do not say what its operations have in hand: the placeholders of a value that has just been
parked, the waiters of a name that is through, the names whose value is being built, the assignment that is
being made. A *ledger* has both, so that its sides balance after every act and not only when an operation
is over. It also keeps which placeholders were ever parked and which were served.

A ledger follows from the acts (`Ledger.after`), and so it can be drawn up for any moment of a pass. The
container makes each act only where it has what the act takes (`Ledger.Enabled`).

Contents:
* `Flight`, `Ledger`, `Ledger.after`, `Ledger.Enabled`, `Ledger.replay`, `Ledger.Trace`;
* the tables as multisets, `Build.waiting`, `Build.buildingOnes`, `Build.parkedNames`, and `Build.parked?`;
* what writing a name or a parked value does to them.
-/

namespace ObjectGraph

/-! ## Waiters, wherever they are -/

/-- A placeholder of a parked value with its place in that. -/
structure Flight where
  slot : Slot
  place : List Place
  pending : Pending
  deriving DecidableEq

/-- Which placeholder it is: the parked value and the place in it. -/
def Flight.address (f : Flight) : Slot × List Place := (f.slot, f.place)

/-- A waiter of a name as a placeholder of a parked value. -/
def Waiter.flight (name : String) (w : Waiter) : Flight := ⟨w.slot, w.place, ⟨name, w.path⟩⟩

/-- The waiters on a name in some state. -/
def NameState.flights (name : String) (st : NameState) : Multiset Flight :=
  ((NameState.waiters (some st)).map (Waiter.flight name) : List Flight)

namespace Build

/-- What the names of a table give, taken together. -/
def gather {β : Type} (g : String → NameState → Multiset β) (names : List (String × NameState)) :
    Multiset β :=
  (names.map fun e => g e.1 e.2).sum

/-- The waiters of all names. -/
def waiting (b : Build) : Multiset Flight := gather NameState.flights b.names

/-- The name itself if it is building. -/
def ifBuilding (name : String) : NameState → Multiset String
  | .building _ => {name}
  | .built _ => 0

/-- The names that are building. -/
def buildingOnes (b : Build) : Multiset String := gather ifBuilding b.names

/-- The names of the parked named values. -/
def parkedNames (b : Build) : Multiset String :=
  (b.deferredNames.map fun d => d.elim 0 fun d => {d.name}).sum

/-- How many assignments of a tracked component are parked. -/
def parkedFor (b : Build) (i : Nat) : Nat := b.deferred.countP fun d => d.any (·.owner == i)

/-- The components that are tracked, in order. -/
def trackedOnes (b : Build) : List ObjectId := b.objects.map (·.object)

/-- What is parked in a slot: the value, and how many placeholders are left by its count. -/
def parked? (b : Build) : Slot → Option (Value × Nat)
  | .property i => b.deferred[i]?.join.map fun d => (d.value, d.outstanding)
  | .name i => b.deferredNames[i]?.join.map fun d => (d.value, d.outstanding)

/-- The slot has been given out. -/
def HasSlot (b : Build) : Slot → Prop
  | .property i => i < b.deferred.length
  | .name i => i < b.deferredNames.length

end Build

/-- What stands at a position of a row stands there in every row that begins with it. -/
theorem getElem?_of_isPrefix {α : Type} {xs ys : List α} (h : xs <+: ys) {i : Nat} {x : α} (hx : xs[i]? = some x) :
    ys[i]? = some x := by
  obtain ⟨inside, here⟩ := List.getElem?_eq_some_iff.mp hx
  rw [List.prefix_iff_getElem?.mp h i inside, here]

/-- The component that an act tracks. -/
def Act.tracked? : Act → Option ObjectId
  | .track o => some o
  | _ => none

/-- An act tracks the component that it says, and those that were tracked stay where they are. -/
theorem Build.trackedOnes_apply (b : Build) {a : Act} (ha : ∀ root, a ≠ .start root) :
    (b.apply a).trackedOnes = b.trackedOnes ++ a.tracked?.toList := by
  have same : ∀ (i : Nat) (f : Tracked → Tracked), (∀ t, (f t).object = t.object) →
      (b.objects.modify i f).map (·.object) = b.objects.map (·.object) := by
    intro i f hf
    refine List.ext_getElem? fun j => ?_
    simp only [List.getElem?_map, List.getElem?_modify]
    rcases b.objects[j]? with _ | t
    · rfl
    · by_cases hij : i = j <;> simp [hij, hf]
  cases a with
  | start root => exact absurd rfl (ha root)
  | track o => simp [trackedOnes, apply, Act.tracked?]
  | park d | release i | configured i | notify i =>
      simp only [trackedOnes, Act.tracked?, Option.toList_none, List.append_nil]
      exact same _ _ fun _ => rfl
  | _ => simp [trackedOnes, apply, Act.tracked?]

/-! ## Ledgers -/

/-- What a container knows, and what its operations have in hand. -/
structure Ledger where
  build : Build
  /-- The waiters that sit on no name: about to do so, or drained from a name and not handed over. -/
  flights : Multiset Flight
  /-- The names that are building and whose value is not parked. -/
  hand : Multiset String
  /-- The tracked component to which an assignment that is no longer parked is being made. -/
  landing : Option Nat
  /-- The placeholders that were ever parked. -/
  enrolled : Multiset (Slot × List Place)
  /-- The placeholders that were served. -/
  served : Multiset (Slot × List Place)

namespace Ledger

/-- The waiters of all names, and those in hand. -/
def waiting (l : Ledger) : Multiset Flight := l.build.waiting + l.flights

/-- The waiters of a name. -/
def waitersOf (l : Ledger) (name : String) : Multiset Flight :=
  (l.build.stateOf? name).elim 0 (NameState.flights name)

/-- The placeholders of a value in a slot. -/
def leaves (slot : Slot) (v : Value) : Multiset Flight :=
  (v.placeholders.map fun p => (⟨slot, p.1, p.2⟩ : Flight) : List Flight)

/-- The ledger after a value with placeholders has been parked. -/
def park (l : Ledger) (slot : Slot) (v : Value) : Ledger :=
  { l with
    flights := leaves slot v + l.flights
    enrolled := (leaves slot v).map Flight.address + l.enrolled }

/-- The ledger after a placeholder has been served. -/
def serve (l : Ledger) (slot : Slot) (place : List Place) : Ledger :=
  { l with
    flights := l.flights.filter fun f => f.address ≠ (slot, place)
    served := (slot, place) ::ₘ l.served }

/-- The ledger after an act. -/
def after (l : Ledger) (a : Act) : Ledger :=
  let next := { l with build := l.build.apply a }
  match a with
  | .start _ => ⟨l.build.apply a, 0, 0, none, 0, 0⟩
  | .begin name => { next with hand := name ::ₘ l.hand }
  | .finish name _ | .abandon name =>
      { next with hand := l.hand.erase name, flights := l.waitersOf name + l.flights }
  | .await name w => { next with flights := l.flights.erase (w.flight name) }
  | .park d => next.park (.property l.build.deferred.length) d.value
  | .parkName d =>
      { next.park (.name l.build.deferredNames.length) d.value with hand := l.hand.erase d.name }
  | .fill i place _ =>
      -- with its last placeholder the assignment is being made
      { next.serve (.property i) place with
        landing := (l.build.deferred[i]?.join.filter (·.outstanding ≤ 1)).map (·.owner) }
  | .fillName i place _ =>
      { next.serve (.name i) place with
        hand := ((l.build.deferredNames[i]?.join.filter (·.outstanding ≤ 1)).elim 0 ({·.name})) + l.hand }
  | .release _ => { next with landing := none }
  | _ => next

/-- The container may act so: it has in hand what the act takes. Only while no assignment is being made
does it do anything but make that. -/
def Enabled (l : Ledger) : Act → Prop
  | .start _ => False
  | .begin name => l.landing = none ∧ l.build.stateOf? name = none
  | .finish name _ | .abandon name => l.landing = none ∧ name ∈ l.hand
  | .await name w =>
      l.landing = none ∧ w.flight name ∈ l.flights ∧ ∃ ws, l.build.stateOf? name = some (.building ws)
  | .park d =>
      l.landing = none ∧ d.owner < l.build.objects.length ∧ d.value.placeholders ≠ [] ∧
        d.outstanding = d.value.placeholders.length
  | .parkName d =>
      l.landing = none ∧ d.name ∈ l.hand ∧ d.value.placeholders ≠ [] ∧
        d.outstanding = d.value.placeholders.length
  | .fill i place _ => l.landing = none ∧ ∃ p, ⟨.property i, place, p⟩ ∈ l.flights
  | .fillName i place _ => l.landing = none ∧ ∃ p, ⟨.name i, place, p⟩ ∈ l.flights
  | .release i => l.landing = some i
  | .write _ _ => True
  | _ => l.landing = none

/-- The ledger of a pass that starts. -/
def start (b : Build) (root : Configuration) : Ledger := ⟨b.apply (.start root), 0, 0, none, 0, 0⟩

/-- The ledger after some acts, the newest first. -/
def replay (l : Ledger) (acts : List Act) : Ledger := acts.foldr (fun a l => l.after a) l

/-- The acts, the newest first, are made from one ledger to another, each where it is enabled. -/
inductive Trace : Ledger → List Act → Ledger → Prop
  | refl (l : Ledger) : Trace l [] l
  | act {l l' : Ledger} {acts : List Act} {a : Act} (h : Trace l acts l') (ha : l'.Enabled a) :
      Trace l (a :: acts) (l'.after a)

/-! ## Laws -/

@[simp] theorem build_after (l : Ledger) (a : Act) : (l.after a).build = l.build.apply a := by
  cases a <;> rfl

@[simp] theorem landing_park (l : Ledger) (slot : Slot) (v : Value) :
    (l.park slot v).landing = l.landing := rfl

namespace Trace

variable {l l' l'' : Ledger} {acts more : List Act}

theorem trans (h : Trace l acts l') (h' : Trace l' more l'') : Trace l (more ++ acts) l'' := by
  induction h' with
  | refl => exact h
  | act _ ha ih => exact .act ih ha

/-- A single act. -/
theorem one {a : Act} (ha : l.Enabled a) : Trace l [a] (l.after a) := .act (.refl l) ha

theorem eq_replay (h : Trace l acts l') : l' = l.replay acts := by
  induction h with
  | refl => rfl
  | act _ _ ih => rw [ih]; rfl

/-- The last act is enabled where those before it lead to. -/
theorem enabled {a : Act} (h : Trace l (a :: acts) l') : (l.replay acts).Enabled a := by
  cases h with
  | act h ha => exact h.eq_replay ▸ ha

/-- Up to any moment of a trace there is a trace. -/
theorem moment (h : Trace l acts l') (hm : more <:+ acts) : Trace l more (l.replay more) := by
  induction h with
  | refl =>
      obtain rfl := List.suffix_nil.mp hm
      exact .refl _
  | act h ha ih =>
      rcases List.suffix_cons_iff.mp hm with rfl | hm
      · rw [← (Trace.act h ha).eq_replay]
        exact .act h ha
      · exact ih hm

/-- No pass starts within a trace. -/
theorem not_start_mem (h : Trace l acts l') (root : Configuration) : .start root ∉ acts := by
  induction h with
  | refl => simp
  | act _ ha ih =>
      intro hm
      rcases List.mem_cons.mp hm with rfl | hm
      · exact ha
      · exact ih hm

/-- What was tracked stays where it is, and what is tracked on the way comes after it. -/
theorem trackedOnes_eq (h : Trace l acts l') :
    l'.build.trackedOnes = l.build.trackedOnes ++ (acts.filterMap Act.tracked?).reverse := by
  induction h with
  | refl => simp
  | @act l' acts a _ ha ih =>
      have start : ∀ root, a ≠ .start root := by
        rintro root rfl
        exact ha
      rw [build_after, Build.trackedOnes_apply _ start, ih, List.append_assoc]
      cases hp : a.tracked? <;> simp [hp]

/-- What is tracked at a moment of a trace is tracked at its end. -/
theorem trackedOnes_subset (h : Trace l acts l') (hm : more <:+ acts) :
    (l.replay more).build.trackedOnes ⊆ l'.build.trackedOnes := by
  rw [(h.moment hm).trackedOnes_eq, h.trackedOnes_eq]
  intro o ho
  rcases List.mem_append.mp ho with ho | ho
  · exact List.mem_append_left _ ho
  · refine List.mem_append_right _ (List.mem_reverse.mpr ?_)
    exact (hm.filterMap _).subset (List.mem_reverse.mp ho)

/-- What was tracked stays tracked. -/
theorem mem_objects (h : Trace l acts l') {o : ObjectId}
    (ho : .track o ∈ acts ∨ ∃ t ∈ l.build.objects, t.object = o) :
    ∃ t ∈ l'.build.objects, t.object = o := by
  have mem : ∀ b : Build, o ∈ b.trackedOnes ↔ ∃ t ∈ b.objects, t.object = o := fun b => List.mem_map
  rw [← mem, h.trackedOnes_eq, List.mem_append, mem, List.mem_reverse, List.mem_filterMap]
  rcases ho with ho | ho
  · exact .inr ⟨.track o, ho, rfl⟩
  · exact .inl ho

end Trace

end Ledger

/-! ## What changes in the tables -/

namespace Build

variable {β : Type}

theorem mem_gather {g : String → NameState → Multiset β} {names : List (String × NameState)} {x : β} :
    x ∈ gather g names ↔ ∃ e ∈ names, x ∈ g e.1 e.2 := by
  induction names with
  | nil => simp [gather]
  | cons e names ih =>
      simp only [gather] at ih
      simp [gather, ih]

/-- Writing the state of a name exchanges what the name gives. -/
theorem gather_put (g : String → NameState → Multiset β) (name : String) (st : NameState)
    (names : List (String × NameState)) :
    gather g (Table.put name st names) + (names.lookup name).elim 0 (g name)
      = gather g names + g name st := by
  induction names with
  | nil => simp [gather, Table.put]
  | cons e names ih =>
      obtain ⟨k, old⟩ := e
      by_cases hk : k = name
      · subst hk
        simp only [gather, Table.put, if_true, List.map_cons, List.sum_cons, Table.lookup_cons,
          Option.elim_some]
        abel
      · simp only [gather] at ih
        simp only [gather, Table.put, hk, if_false, List.map_cons, List.sum_cons, Table.lookup_cons,
          Ne.symm hk, add_assoc, ih]

/-- Removing a name that is there once takes away what it gives. -/
theorem gather_remove (g : String → NameState → Multiset β) (name : String)
    {names : List (String × NameState)} (hn : (Table.keys names).Nodup) :
    gather g (names.filter (·.1 != name)) + (names.lookup name).elim 0 (g name) = gather g names := by
  induction names with
  | nil => simp [gather]
  | cons e names ih =>
      obtain ⟨k, old⟩ := e
      obtain ⟨hk, hn⟩ := List.nodup_cons.mp hn
      by_cases hname : k = name
      · subst hname
        have others : names.filter (·.1 != k) = names := by
          refine List.filter_eq_self.mpr fun e he => ?_
          have hmem : e.1 ∈ Table.keys names := List.mem_map_of_mem he
          have : e.1 ≠ k := fun h => hk (h ▸ hmem)
          simpa using this
        simp [gather, others, add_comm]
      · have ih := ih hn
        simp only [gather] at ih
        have keep : ((k, old).1 != name) = true := by simpa using hname
        simp only [gather, List.filter_cons, keep, if_true, List.map_cons, List.sum_cons,
          Table.lookup_cons, Ne.symm hname, if_false, add_assoc, ih]

/-- Changing one of some parked values exchanges what it gives. -/
theorem sum_modify {α M : Type} [AddCommMonoid M] (g : α → M) (f : α → α) {i : Nat} {ds : List α}
    {d : α} (hd : ds[i]? = some d) :
    ((ds.modify i f).map g).sum + g d = (ds.map g).sum + g (f d) := by
  induction ds generalizing i with
  | nil => exact absurd hd (by simp)
  | cons e ds ih =>
      cases i with
      | zero =>
          obtain rfl : e = d := by simpa using hd
          simp only [List.modify_zero_cons, List.map_cons, List.sum_cons]
          abel
      | succ i =>
          simp only [List.modify_succ_cons, List.map_cons, List.sum_cons, add_assoc,
            ih (by simpa using hd)]

/-- Changing one of some parked values exchanges what it counts. -/
theorem countP_modify {α : Type} (p : α → Bool) (f : α → α) {i : Nat} {ds : List α} {d : α}
    (hd : ds[i]? = some d) :
    (ds.modify i f).countP p + (if p d then 1 else 0) = ds.countP p + if p (f d) then 1 else 0 := by
  induction ds generalizing i with
  | nil => exact absurd hd (by simp)
  | cons e ds ih =>
      cases i with
      | zero =>
          obtain rfl : e = d := by simpa using hd
          simp only [List.modify_zero_cons, List.countP_cons]
          omega
      | succ i =>
          have := ih (i := i) (by simpa using hd)
          simp only [List.modify_succ_cons, List.countP_cons]
          omega

/-! ### What is parked -/

section

variable (b : Build)

theorem parked?_of_hasSlot {slot : Slot} {r : Value × Nat} (h : b.parked? slot = some r) :
    b.HasSlot slot := by
  cases slot with
  | property i =>
      by_contra hi
      have : b.deferred[i]? = none := by simpa [HasSlot] using hi
      simp [parked?, this] at h
  | name i =>
      by_contra hi
      have : b.deferredNames[i]? = none := by simpa [HasSlot] using hi
      simp [parked?, this] at h

theorem parked?_park (d : Deferred) (slot : Slot) :
    (b.apply (.park d)).parked? slot
      = if slot = .property b.deferred.length then some (d.value, d.outstanding) else b.parked? slot := by
  cases slot with
  | name i => simp [parked?, apply]
  | property i =>
      simp only [parked?, apply, Slot.property.injEq, List.getElem?_append]
      rcases Nat.lt_trichotomy i b.deferred.length with hi | rfl | hi
      · simp [hi, Nat.ne_of_lt hi]
      · simp
      · have h1 : ¬ i < b.deferred.length := by omega
        have h2 : [some d][i - b.deferred.length]? = none := by simp; omega
        simp [h1, h2, Nat.ne_of_gt hi]

theorem parked?_parkName (d : DeferredName) (slot : Slot) :
    (b.apply (.parkName d)).parked? slot
      = if slot = .name b.deferredNames.length then some (d.value, d.outstanding)
        else b.parked? slot := by
  cases slot with
  | property i => simp [parked?, apply]
  | name i =>
      simp only [parked?, apply, Slot.name.injEq, List.getElem?_append]
      rcases Nat.lt_trichotomy i b.deferredNames.length with hi | rfl | hi
      · simp [hi, Nat.ne_of_lt hi]
      · simp
      · have h1 : ¬ i < b.deferredNames.length := by omega
        have h2 : [some d][i - b.deferredNames.length]? = none := by simp; omega
        simp [h1, h2, Nat.ne_of_gt hi]

/-- What is parked in a slot with a place filled; with the last one it is parked no more. -/
def filled (place : List Place) (v : Value) (r : Value × Nat) : Option (Value × Nat) :=
  if r.2 ≤ 1 then none else some (Value.setAt v place r.1, r.2 - 1)

theorem parked?_fill (i : Nat) (place : List Place) (v : Value) (slot : Slot) :
    (b.apply (.fill i place v)).parked? slot
      = if slot = .property i then (b.parked? slot).bind (filled place v) else b.parked? slot := by
  cases slot with
  | name j => simp [parked?, apply]
  | property j =>
      simp only [parked?, apply, Slot.property.injEq, List.getElem?_modify]
      by_cases hij : i = j
      · subst hij
        rcases b.deferred[i]? with _ | _ | d
        · simp
        · simp
        · by_cases hd : d.outstanding ≤ 1
          · have : d.outstanding - 1 = 0 := by omega
            simp [filled, Deferred.filled, hd, this]
          · have : 0 < d.outstanding - 1 := by omega
            simp [filled, Deferred.filled, hd, this, Option.filter]
      · simp [hij, Ne.symm hij]

theorem parked?_fillName (i : Nat) (place : List Place) (v : Value) (slot : Slot) :
    (b.apply (.fillName i place v)).parked? slot
      = if slot = .name i then (b.parked? slot).bind (filled place v) else b.parked? slot := by
  cases slot with
  | property j => simp [parked?, apply]
  | name j =>
      simp only [parked?, apply, Slot.name.injEq, List.getElem?_modify]
      by_cases hij : i = j
      · subst hij
        rcases b.deferredNames[i]? with _ | _ | d
        · simp
        · simp
        · by_cases hd : d.outstanding ≤ 1
          · have : d.outstanding - 1 = 0 := by omega
            simp [filled, DeferredName.filled, hd, this]
          · have : 0 < d.outstanding - 1 := by omega
            simp [filled, DeferredName.filled, hd, this, Option.filter]
      · simp [hij, Ne.symm hij]

theorem parkedFor_fill {i : Nat} {d : Deferred} (hd : b.deferred[i]? = some (some d))
    (place : List Place) (v : Value) (j : Nat) :
    (b.apply (.fill i place v)).parkedFor j + (if d.owner = j then 1 else 0)
      = b.parkedFor j + if d.outstanding ≤ 1 then 0 else if d.owner = j then 1 else 0 := by
  have count := countP_modify (fun d => Option.any (·.owner == j) d)
    (fun d => (d.map (·.filled place v)).filter fun d => 0 < d.outstanding) hd
  have after : Option.any (·.owner == j) (((some d).map (·.filled place v)).filter fun d => 0 < d.outstanding)
      = if d.outstanding ≤ 1 then false else d.owner == j := by
    by_cases ho : d.outstanding ≤ 1
    · have : d.outstanding - 1 = 0 := by omega
      simp [Deferred.filled, ho, this]
    · have : 0 < d.outstanding - 1 := by omega
      simp [Deferred.filled, ho, this, Option.filter]
  rw [after] at count
  unfold parkedFor
  by_cases ho : d.outstanding ≤ 1 <;> simpa [apply, ho] using count

theorem parkedNames_fillName {i : Nat} {d : DeferredName} (hd : b.deferredNames[i]? = some (some d))
    (place : List Place) (v : Value) :
    (b.apply (.fillName i place v)).parkedNames + {d.name}
      = b.parkedNames + if d.outstanding ≤ 1 then 0 else {d.name} := by
  have sum := sum_modify (fun d => Option.elim d (0 : Multiset String) fun d => {d.name})
    (fun d => (d.map (·.filled place v)).filter fun d => 0 < d.outstanding) hd
  have after : (((some d).map (·.filled place v)).filter fun d => 0 < d.outstanding).elim
        (0 : Multiset String) (fun d => {d.name})
      = if d.outstanding ≤ 1 then 0 else {d.name} := by
    by_cases ho : d.outstanding ≤ 1
    · have : d.outstanding - 1 = 0 := by omega
      simp [DeferredName.filled, ho, this, Option.filter]
    · have : 0 < d.outstanding - 1 := by omega
      simp [DeferredName.filled, ho, this, Option.filter]
  rw [after] at sum
  exact sum

end

end Build

end ObjectGraph
