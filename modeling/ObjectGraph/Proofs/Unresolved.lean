import Mathlib.Logic.Relation
import ObjectGraph.Build.Registry

/-!
# `Proofs.Unresolved` — looking for placeholders finds every one that can be reached

`Heap.unresolved` walks from component to component, each once, and all the values it starts from share
the components visited. That a component is skipped hides nothing: whatever was visited, its properties
lead to nothing but what is visited in the end (`Component.Within`). The components being walked are the
exception while the walk is under way, so the walk is described by what it *adds* (`Found.Adds`): of each
component that is new among the visited ones, the properties stay among the visited ones.

Only components on the heap lead anywhere, and each is visited once; so a walk never goes deeper than the
heap is long, and its budget is never used up.

Contents:
* `Heap.Holds`, `Heap.Leads`, `Heap.Clean`;
* `Value.Within`, and that values within a closed set of components are clean;
* `Found.Adds` and what each function of the walk adds;
* `unresolved_eq_nil_iff`.
-/

namespace ObjectGraph

/-! ## What leads to what -/

/-- A value holds another: as an item, as an entry, or as what a property of a component reads. -/
inductive Heap.Holds (h : Heap) : Value → Value → Prop
  | item {items : List Value} {v : Value} (hv : v ∈ items) : Holds h (.list items) v
  | entry {entries : List (String × Value)} {k : String} {v : Value} (hv : (k, v) ∈ entries) :
      Holds h (.map entries) v
  | reading {o : ObjectId} {c : Component} {name : String} {v : Value} (hc : h[o]? = some c)
      (hv : (name, v) ∈ c.readings) : Holds h (.object o) v

/-- A value can be reached from another. -/
def Heap.Leads (h : Heap) : Value → Value → Prop := Relation.ReflTransGen h.Holds

/-- No placeholder can be reached from a value. -/
def Heap.Clean (h : Heap) (v : Value) : Prop := ∀ p, ¬ h.Leads v (.pending p)

/-! ## Values within a set of components -/

/-- A value holds no placeholder, and no component but those visited. -/
structure Value.Within (visited : List ObjectId) (v : Value) : Prop where
  noPending : v.containsPending = false
  components : ∀ o ∈ v.components, o ∈ visited

/-- The properties of a component of the heap stay among those visited. -/
def Heap.Inside (h : Heap) (visited : List ObjectId) (o : ObjectId) : Prop :=
  ∀ c, h[o]? = some c → ∀ e ∈ c.readings, e.2.Within visited

namespace Value

theorem containsPending_of_mem {items : List Value} {v : Value}
    (h : itemsContainPending items = false) (hv : v ∈ items) : v.containsPending = false := by
  induction items with
  | nil => exact absurd hv (by simp)
  | cons w ws ih =>
      simp only [itemsContainPending, Bool.or_eq_false_iff] at h
      rcases List.mem_cons.mp hv with rfl | hv
      · exact h.1
      · exact ih h.2 hv

theorem containsPending_of_entry {entries : List (String × Value)} {k : String} {v : Value}
    (h : entriesContainPending entries = false) (hv : (k, v) ∈ entries) :
    v.containsPending = false := by
  induction entries with
  | nil => exact absurd hv (by simp)
  | cons e es ih =>
      obtain ⟨l, w⟩ := e
      simp only [entriesContainPending, Bool.or_eq_false_iff] at h
      rcases List.mem_cons.mp hv with he | hv
      · cases he; exact h.1
      · exact ih h.2 hv

theorem mem_itemComponents {items : List Value} {v : Value} {o : ObjectId} (hv : v ∈ items)
    (ho : o ∈ v.components) : o ∈ itemComponents items := by
  induction items with
  | nil => exact absurd hv (by simp)
  | cons w ws ih =>
      simp only [itemComponents, List.mem_append]
      rcases List.mem_cons.mp hv with rfl | hv
      · exact .inl ho
      · exact .inr (ih hv)

theorem mem_entryComponents {entries : List (String × Value)} {k : String} {v : Value} {o : ObjectId}
    (hv : (k, v) ∈ entries) (ho : o ∈ v.components) : o ∈ entryComponents entries := by
  induction entries with
  | nil => exact absurd hv (by simp)
  | cons e es ih =>
      obtain ⟨l, w⟩ := e
      simp only [entryComponents, List.mem_append]
      rcases List.mem_cons.mp hv with he | hv
      · cases he; exact .inl ho
      · exact .inr (ih hv)

namespace Within

variable {visited more : List ObjectId} {v : Value}

theorem mono (hv : v.Within visited) (h : ∀ o ∈ visited, o ∈ more) : v.Within more :=
  ⟨hv.noPending, fun o ho => h o (hv.components o ho)⟩

/-- What is held by a value stays within a closed set of components with it. -/
theorem holds {h : Heap} {w : Value} (hv : v.Within visited) (hi : ∀ o ∈ visited, h.Inside visited o)
    (hw : h.Holds v w) : w.Within visited := by
  cases hw with
  | item hm =>
      exact ⟨containsPending_of_mem hv.noPending hm,
        fun o ho => hv.components o (mem_itemComponents hm ho)⟩
  | entry hm =>
      exact ⟨containsPending_of_entry hv.noPending hm,
        fun o ho => hv.components o (mem_entryComponents hm ho)⟩
  | @reading o c name w hc hr => exact hi o (hv.components o List.mem_cons_self) c hc _ hr

/-- Nothing that can be reached from a value leaves a closed set of components. -/
theorem clean {h : Heap} (hv : v.Within visited) (hi : ∀ o ∈ visited, h.Inside visited o) :
    h.Clean v := by
  intro p hp
  have within : ∀ w, h.Leads v w → w.Within visited := by
    intro w hw
    induction hw with
    | refl => exact hv
    | tail _ hstep ih => exact ih.holds hi hstep
  have := (within _ hp).noPending
  simp [containsPending] at this

end Within

end Value

theorem Heap.Inside.mono {h : Heap} {visited more : List ObjectId} {o : ObjectId}
    (hi : h.Inside visited o) (hm : ∀ o ∈ visited, o ∈ more) : h.Inside more o :=
  fun c hc e he => (hi c hc e he).mono hm

/-! ## What a walk adds -/

/-- What a walk adds to what was found: nothing is lost, and unless there is a placeholder, the properties
of every component that is new among the visited ones stay among them. -/
structure Found.Adds (h : Heap) (f f' : Found) : Prop where
  visited : ∀ o ∈ f.visited, o ∈ f'.visited
  names : f'.names = [] → f.names = []
  inside : f'.names = [] → ∀ o ∈ f'.visited, o ∉ f.visited → h.Inside f'.visited o

namespace Found.Adds

variable {h : Heap} {f g k : Found}

theorem refl (h : Heap) (f : Found) : Adds h f f :=
  ⟨fun _ ho => ho, id, fun _ _ ho hn => absurd ho hn⟩

theorem trans (h₁ : Adds h f g) (h₂ : Adds h g k) : Adds h f k := by
  refine ⟨fun o ho => h₂.visited o (h₁.visited o ho), fun hk => h₁.names (h₂.names hk), ?_⟩
  intro hk o ho hn
  by_cases hg : o ∈ g.visited
  · exact (h₁.inside (h₂.names hk) o hg hn).mono h₂.visited
  · exact h₂.inside hk o ho hg

end Found.Adds

/-- How many components of the heap have not been visited. -/
def Heap.unvisited (h : Heap) (visited : List ObjectId) : Nat :=
  (List.range h.length).countP fun o => !visited.contains o

namespace Heap

theorem unvisited_le (h : Heap) {visited more : List ObjectId} (hm : ∀ o ∈ visited, o ∈ more) :
    h.unvisited more ≤ h.unvisited visited := by
  refine List.countP_mono_left fun o _ ho => ?_
  simp only [List.contains_eq_mem, Bool.not_eq_true', decide_eq_false_iff_not] at ho ⊢
  exact fun hv => ho (hm o hv)

theorem unvisited_nil_le (h : Heap) : h.unvisited [] ≤ h.length := by
  have shorter := List.countP_le_length (p := fun o => !([] : List ObjectId).contains o) (l := List.range h.length)
  rwa [List.length_range] at shorter

/-- Visiting a component of the heap leaves one less. -/
theorem unvisited_cons_lt {h : Heap} {visited : List ObjectId} {o : ObjectId} (ho : o < h.length)
    (hn : o ∉ visited) : h.unvisited (o :: visited) < h.unvisited visited := by
  have split : ((List.range h.length).filter fun x => !(o :: visited).contains x)
      = ((List.range h.length).filter fun x => !visited.contains x).filter (· ≠ o) := by
    rw [List.filter_filter]
    refine List.filter_congr fun x _ => ?_
    by_cases hx : x = o <;> simp [hx]
  simp only [unvisited, List.countP_eq_length_filter, split]
  exact List.length_filter_lt_length_iff_exists.mpr ⟨o, by simp [ho, hn], by simp⟩

end Heap

namespace Value

variable {h : Heap} {budget : Nat} {object : ObjectId → Found → Found}

/-- A walk from components that adds what can be reached from them, while the budget lasts. -/
def Explores (h : Heap) (budget : Nat) (object : ObjectId → Found → Found) : Prop :=
  ∀ o f, h.unvisited f.visited < budget →
    f.Adds h (object o f) ∧ ((object o f).names = [] → o ∈ (object o f).visited)

mutual

/-- Looking for placeholders in a value adds what can be reached from it. -/
theorem addUnresolved_adds (hobj : Explores h budget object) (v : Value) (f : Found)
    (hf : h.unvisited f.visited < budget) :
    f.Adds h (addUnresolved object v f) ∧
      ((addUnresolved object v f).names = [] → v.Within (addUnresolved object v f).visited) := by
  match v with
  | .pending p =>
      refine ⟨⟨fun o ho => ho, fun hn => ?_, fun hn => ?_⟩, fun hn => ?_⟩ <;>
        simp [addUnresolved] at hn
  | .list items =>
      obtain ⟨adds, within⟩ := addItems_adds hobj items f hf
      refine ⟨by simpa [addUnresolved] using adds, fun hn => ?_⟩
      simpa [addUnresolved] using within (by simpa [addUnresolved] using hn)
  | .map entries =>
      obtain ⟨adds, within⟩ := addEntries_adds hobj entries f hf
      refine ⟨by simpa [addUnresolved] using adds, fun hn => ?_⟩
      simpa [addUnresolved] using within (by simpa [addUnresolved] using hn)
  | .object o =>
      obtain ⟨adds, visited⟩ := hobj o f hf
      refine ⟨by simpa [addUnresolved] using adds, fun hn => ⟨rfl, ?_⟩⟩
      have := visited (by simpa [addUnresolved] using hn)
      simpa [addUnresolved, components] using this
  | .null | .bool _ | .number _ | .string _ | .date _ | .binary _ | .uri _ | .configuration _
  | .resource _ =>
      refine ⟨by simpa [addUnresolved] using Found.Adds.refl h f, fun _ => ⟨rfl, ?_⟩⟩
      simp [components]

/-- Looking for placeholders in items adds what can be reached from them. -/
theorem addItems_adds (hobj : Explores h budget object) (vs : List Value) (f : Found)
    (hf : h.unvisited f.visited < budget) :
    f.Adds h (addItems object vs f) ∧
      ((addItems object vs f).names = [] → (Value.list vs).Within (addItems object vs f).visited) := by
  match vs with
  | [] =>
      refine ⟨by simpa [addItems] using Found.Adds.refl h f, fun _ => ⟨rfl, ?_⟩⟩
      simp [components, itemComponents]
  | v :: vs =>
      obtain ⟨first, within⟩ := addUnresolved_adds hobj v f hf
      obtain ⟨rest, withinRest⟩ := addItems_adds hobj vs (addUnresolved object v f)
        (Nat.lt_of_le_of_lt (h.unvisited_le first.visited) hf)
      simp only [addItems]
      refine ⟨first.trans rest, fun hn => ?_⟩
      have hv := (within (rest.names hn)).mono rest.visited
      have hvs := withinRest hn
      refine ⟨?_, fun o ho => ?_⟩
      · simpa [containsPending, itemsContainPending] using And.intro hv.noPending hvs.noPending
      · simp only [components, itemComponents, List.mem_append] at ho
        exact ho.elim (hv.components o) (hvs.components o)

/-- Looking for placeholders in entries adds what can be reached from them. -/
theorem addEntries_adds (hobj : Explores h budget object) (es : List (String × Value)) (f : Found)
    (hf : h.unvisited f.visited < budget) :
    f.Adds h (addEntries object es f) ∧
      ((addEntries object es f).names = [] → (Value.map es).Within (addEntries object es f).visited) := by
  match es with
  | [] =>
      refine ⟨by simpa [addEntries] using Found.Adds.refl h f, fun _ => ⟨rfl, ?_⟩⟩
      simp [components, entryComponents]
  | (k, v) :: es =>
      obtain ⟨first, within⟩ := addUnresolved_adds hobj v f hf
      obtain ⟨rest, withinRest⟩ := addEntries_adds hobj es (addUnresolved object v f)
        (Nat.lt_of_le_of_lt (h.unvisited_le first.visited) hf)
      simp only [addEntries]
      refine ⟨first.trans rest, fun hn => ?_⟩
      have hv := (within (rest.names hn)).mono rest.visited
      have hes := withinRest hn
      refine ⟨?_, fun o ho => ?_⟩
      · simpa [containsPending, entriesContainPending] using And.intro hv.noPending hes.noPending
      · simp only [components, entryComponents, List.mem_append] at ho
        exact ho.elim (hv.components o) (hes.components o)

end

end Value

namespace Heap

/-- Walking from a component adds what can be reached from it, while the budget lasts. -/
theorem addObject_explores (h : Heap) (budget : Nat) :
    Value.Explores h budget (h.addObject budget) := by
  induction budget with
  | zero => exact fun o f hf => absurd hf (by omega)
  | succ budget ih =>
      intro o f hf
      simp only [addObject]
      by_cases hv : o ∈ f.visited
      -- it has been visited, perhaps by a walk that is still under way
      · rw [if_pos (by simpa using hv)]
        exact ⟨.refl h f, fun _ => hv⟩
      · rw [if_neg (by simpa using hv)]
        cases hc : h[o]? with
        | none =>
            refine ⟨⟨fun x hx => .tail _ hx, id, fun _ x hx hn => ?_⟩, fun _ => List.mem_cons_self⟩
            obtain rfl : x = o := (List.mem_cons.mp hx).resolve_right hn
            exact fun c hc' => absurd hc' (by simp [hc])
        | some c =>
            have inHeap : o < h.length := (List.getElem?_eq_some_iff.mp hc).1
            have enough : h.unvisited (o :: f.visited) < budget := by
              have := unvisited_cons_lt inHeap hv
              omega
            obtain ⟨adds, within⟩ := Value.addItems_adds ih (c.readings.map Prod.snd)
              ⟨o :: f.visited, f.names⟩ enough
            refine ⟨⟨fun x hx => adds.visited x (.tail _ hx), adds.names, fun hn x hx hx' => ?_⟩,
              fun _ => adds.visited o List.mem_cons_self⟩
            by_cases hxo : x = o
            · subst hxo
              intro c' hc' e he
              cases hc.symm.trans hc'
              have hall := within hn
              have hmem : e.2 ∈ c.readings.map Prod.snd := List.mem_map_of_mem he
              exact ⟨Value.containsPending_of_mem hall.noPending hmem,
                fun y hy => hall.components y (Value.mem_itemComponents hmem hy)⟩
            · exact adds.inside hn x hx (by simp [hxo, hx'])

/-! ## What is found can be reached -/

/-- Every name that a walk adds is that of a placeholder that can be reached from where it starts. -/
def Finds (h : Heap) (v : Value) (f f' : Found) : Prop :=
  ∀ n ∈ f'.names, n ∈ f.names ∨ ∃ p : Pending, p.name = n ∧ h.Leads v (.pending p)

end Heap

namespace Value

variable {h : Heap} {object : ObjectId → Found → Found}

mutual

/-- What is found in a value can be reached from it. -/
theorem addUnresolved_finds (hobj : ∀ o f, h.Finds (.object o) f (object o f)) (v : Value) (f : Found) :
    h.Finds v f (addUnresolved object v f) := by
  intro n hn
  match v with
  | .pending p =>
      simp only [addUnresolved, List.mem_append, List.mem_singleton] at hn
      exact hn.imp id fun hn => ⟨p, hn.symm, .refl⟩
  | .list items =>
      rcases addItems_finds hobj items f n (by simpa [addUnresolved] using hn) with hn | ⟨v, hv, p, hp, hl⟩
      · exact .inl hn
      · exact .inr ⟨p, hp, .head (.item hv) hl⟩
  | .map entries =>
      rcases addEntries_finds hobj entries f n (by simpa [addUnresolved] using hn) with
        hn | ⟨k, v, hv, p, hp, hl⟩
      · exact .inl hn
      · exact .inr ⟨p, hp, .head (.entry hv) hl⟩
  | .object o => exact hobj o f n (by simpa [addUnresolved] using hn)
  | .null | .bool _ | .number _ | .string _ | .date _ | .binary _ | .uri _ | .configuration _
  | .resource _ => exact .inl (by simpa [addUnresolved] using hn)

/-- What is found in items can be reached from one of them. -/
theorem addItems_finds (hobj : ∀ o f, h.Finds (.object o) f (object o f)) (vs : List Value) (f : Found) :
    ∀ n ∈ (addItems object vs f).names,
      n ∈ f.names ∨ ∃ v ∈ vs, ∃ p : Pending, p.name = n ∧ h.Leads v (.pending p) := by
  intro n hn
  match vs with
  | [] => exact .inl hn
  | v :: vs =>
      rcases addItems_finds hobj vs _ n hn with hn | ⟨w, hw, hp⟩
      · exact (addUnresolved_finds hobj v f n hn).imp id fun hp => ⟨v, List.mem_cons_self, hp⟩
      · exact .inr ⟨w, .tail _ hw, hp⟩

/-- What is found in entries can be reached from one of them. -/
theorem addEntries_finds (hobj : ∀ o f, h.Finds (.object o) f (object o f)) (es : List (String × Value))
    (f : Found) :
    ∀ n ∈ (addEntries object es f).names,
      n ∈ f.names ∨ ∃ k v, (k, v) ∈ es ∧ ∃ p : Pending, p.name = n ∧ h.Leads v (.pending p) := by
  intro n hn
  match es with
  | [] => exact .inl hn
  | (k, v) :: es =>
      rcases addEntries_finds hobj es _ n hn with hn | ⟨l, w, hw, hp⟩
      · exact (addUnresolved_finds hobj v f n hn).imp id fun hp => ⟨k, v, List.mem_cons_self, hp⟩
      · exact .inr ⟨l, w, .tail _ hw, hp⟩

end

end Value

namespace Heap

/-- What is found from a component can be reached from it. -/
theorem addObject_finds (h : Heap) (budget : Nat) (o : ObjectId) (f : Found) :
    h.Finds (.object o) f (h.addObject budget o f) := by
  induction budget generalizing o f with
  | zero => exact fun n hn => .inl hn
  | succ budget ih =>
      intro n hn
      simp only [addObject] at hn
      split at hn
      · exact .inl hn
      · split at hn
        · exact .inl hn
        next c hc =>
          rcases Value.addItems_finds ih _ _ n hn with hn | ⟨v, hv, p, hp, hl⟩
          · exact .inl hn
          · obtain ⟨⟨name, w⟩, he, rfl⟩ := List.mem_map.mp hv
            exact .inr ⟨p, hp, .head (.reading hc he) hl⟩

/-! ## The walk from some values -/

/-- No placeholder is found from some values just if none can be reached from them. -/
theorem unresolved_eq_nil_iff (h : Heap) (vs : List Value) :
    h.unresolved vs = [] ↔ ∀ v ∈ vs, h.Clean v := by
  constructor
  · intro hn v hv
    have enough : h.unvisited [] < h.length + 1 := Nat.lt_succ_of_le h.unvisited_nil_le
    obtain ⟨adds, within⟩ := Value.addItems_adds (h.addObject_explores (h.length + 1)) vs ⟨[], []⟩ enough
    exact ((within hn).holds (h := h) (fun o ho => adds.inside hn o ho (by simp)) (.item hv)).clean
      fun o ho => adds.inside hn o ho (by simp)
  · intro hclean
    refine List.eq_nil_iff_forall_not_mem.mpr fun n hn => ?_
    rcases Value.addItems_finds (h.addObject_finds (h.length + 1)) vs ⟨[], []⟩ n hn with hn | hn
    · exact absurd hn (by simp)
    · obtain ⟨v, hv, p, -, hl⟩ := hn
      exact hclean v hv p hl

end Heap

end ObjectGraph
