import ObjectGraph.Proofs.Run

/-!
# `Proofs.Paths` — reading along a path made of two

Two navigators read along a path: a walk goes through raw data with the node it started from, and a read
that stops part way makes a node of what it finds and goes on from there. Everything a walk can meet is
indifferent to where it stops, but one thing: a map that declares parameters. As a node it binds them and
hides their keys; on the way of a walk it is data like any other, whose texts are resolved where the walk
started. So a path of two parts reads as its parts do one after the other, if the first part is read
without binding what is declared at its end, and in any case if nothing is declared there (`valueAt_join`);
`not_valueAt_join` shows that the exception is real.

Contents:
* `Solid` paths; `locate`, `readOn`, `walk_append`: where the first part of a path leads;
* `Alike`: nodes that resolve texts in the same way; `bare`, `arriveBare`, `walk_eq_arriveBare`;
* `Cursor.declares`, `valueAt_join`, `not_valueAt_join`.
-/

namespace ObjectGraph

/-! ## Paths and their segments -/

/-- A path leads somewhere with each of its segments. -/
def Solid (path : String) : Prop := ∀ segment ∈ Configuration.segments path, segment ≠ ""

instance (path : String) : Decidable (Solid path) :=
  inferInstanceAs (Decidable (∀ segment ∈ Configuration.segments path, segment ≠ ""))

namespace Configuration

variable {resolve : Resolver}

/-! ## Where a path leads -/

/-- Where a walk stands in the end, before what is there is resolved. -/
def locate (resolve : Resolver) : List String → Cursor → Run (Option Cursor)
  | [], cursor => return some cursor
  | segment :: rest, cursor => do
      match ← settle resolve cursor with
      | none => return none
      | some cursor =>
          match step (← Run.heap) segment rest cursor with
          | none => return none
          | some (.stop v) => return some (.value v)
          | some (.go next) => locate resolve rest next

/-- Reading on from what is there, if anything is. -/
def readOn {α : Type} (next : α → Run (Option Value)) : Option α → Run (Option Value)
  | none => return none
  | some a => next a

/-- A walk resolves what stands where it leads. -/
theorem walk_eq_locate (segs : List String) (cursor : Cursor) :
    walk resolve segs cursor = locate resolve segs cursor >>= readOn (arrive resolve) := by
  induction segs generalizing cursor with
  | nil => simp [walk, locate, readOn]
  | cons segment rest ih =>
      simp only [walk, locate, bind_assoc]
      refine bind_congr fun cursor' => ?_
      cases cursor' with
      | none => simp [readOn]
      | some cursor' =>
          simp only [bind_assoc]
          refine bind_congr fun heap => ?_
          rcases step heap segment rest cursor' with _ | _ | next
          · simp [readOn]
          · simp [readOn, arrive]
          · exact ih next

/-- A step ends the walk only at a placeholder, which takes the rest of the path. From anywhere else it leads
to the same, however the path goes on. -/
theorem step_cases (heap : Heap) {segment : String} (hs : segment ≠ "") (cursor : Cursor) :
    (∃ p : Pending, cursor = .value (.pending p) ∧ ∀ rest, step heap segment rest cursor
      = some (.stop (.pending (p.project (Text.joinText '.' (segment :: rest)))))) ∨
    ∃ next : Option Cursor, ∀ rest, step heap segment rest cursor = next.map .go := by
  have goes : ∀ rest : List String, ¬ (segment = "" ∧ rest = []) := fun _ h => hs h.1
  have stepped : ∀ (v : Value) rest, step heap segment rest (.value v) = stepValue heap v segment rest :=
    fun _ _ => rfl
  cases cursor with
  | raw c j => exact .inr ⟨_, fun _ => (Option.map_map ..).symm⟩
  | value v =>
      simp only [stepped, stepValue, if_neg (goes _)]
      cases v with
      | pending p => exact .inl ⟨p, rfl, fun _ => rfl⟩
      | configuration c => exact .inr ⟨_, fun _ => (Option.map_map ..).symm⟩
      | map entries => exact .inr ⟨_, fun _ => (Option.map_map ..).symm⟩
      | list items => exact .inr ⟨_, fun _ => (Option.map_map ..).symm⟩
      | object o => exact .inr ⟨_, fun _ => (Option.map_map ..).symm⟩
      | resource r =>
          refine .inr ⟨r.toConfiguration?.bind fun c => (c.data.child? segment).map fun j => .raw c j,
            fun _ => ?_⟩
          cases h : r.toConfiguration? with
          | none => simp only [h, Option.bind_none, Option.map_none]
          | some c => simp only [h, Option.bind_some, stepRaw, Option.map_map]; rfl
      | _ => exact .inr ⟨none, fun _ => rfl⟩

theorem walk_pending (p : Pending) {segment : String} (hs : segment ≠ "") (rest : List String) :
    walk resolve (segment :: rest) (.value (.pending p))
      = pure (some (.pending (p.project (Text.joinText '.' (segment :: rest))))) := by
  have goes : ¬ (segment = "" ∧ rest = []) := fun h => hs h.1
  simp only [walk, settle, pure_bind, step, stepValue, if_neg goes]
  rfl

/-- A walk along a path of two parts goes on from where the first part leads. -/
theorem walk_append {first : List String} (hf : ∀ segment ∈ first, segment ≠ "") {next : String}
    (hn : next ≠ "") (rest : List String) (cursor : Cursor) :
    walk resolve (first ++ next :: rest) cursor
      = locate resolve first cursor >>= readOn (walk resolve (next :: rest)) := by
  induction first generalizing cursor with
  | nil => simp only [List.nil_append, locate, pure_bind, readOn]
  | cons segment first ih =>
      have solid : segment ≠ "" := hf segment List.mem_cons_self
      rw [List.cons_append, walk, locate, bind_assoc]
      refine bind_congr fun settled => ?_
      cases settled with
      | none => simp only [pure_bind, readOn]
      | some settled =>
          dsimp only
          rw [bind_assoc]
          refine bind_congr fun heap => ?_
          rcases step_cases heap solid settled with ⟨p, rfl, stops⟩ | ⟨on, goes⟩
          · rw [stops, stops]
            -- the placeholder has taken the first part, and takes the second on top of it
            have whole : p.project (Text.joinText '.' (segment :: (first ++ next :: rest)))
                = (p.project (Text.joinText '.' (segment :: first))).project
                    (Text.joinText '.' (next :: rest)) := by
              rw [Pending.project_project (joinText_ne_empty solid first) (joinText_ne_empty hn rest),
                ← joinText_append (List.cons_ne_nil segment first) (List.cons_ne_nil next rest),
                List.cons_append]
            dsimp only
            rw [pure_bind, readOn, walk_pending _ hn, whole]
          · rw [goes, goes]
            cases on with
            | none => simp only [Option.map_none, pure_bind, readOn]
            | some on => exact ih (fun s hs => hf s (List.mem_cons_of_mem _ hs)) on

/-! ## Nodes that resolve texts in the same way -/

/-- Two nodes that differ in their data at most. -/
structure Alike (c d : Configuration) : Prop where
  context : c.context = d.context
  origin : c.origin = d.origin
  root : c.root = d.root
  handler : c.handler = d.handler
  strict : c.strict = d.strict

variable {c d : Configuration}

theorem Alike.child (h : Alike c d) (j : Json) : c.child j = d.child j := by
  simp only [Configuration.child, h.context, h.origin, h.root, h.handler, h.strict]

theorem Alike.replaceText (h : Alike c d) (env : Surroundings) (back : Option Resolver) (hops : Nat)
    (supplied : String) (n : Nat) (current : String) :
    replaceText env back hops c supplied n current = replaceText env back hops d supplied n current := by
  induction n generalizing current with
  | zero => rfl
  | succ n ih =>
      simp only [Configuration.replaceText, followRoot, h.context, h.handler, h.root, h.strict, ih]

theorem Alike.resolveText (h : Alike c d) (env : Surroundings) (hops : Nat) (s : String) :
    resolveText env hops c s = resolveText env hops d s := by
  cases hops with
  | zero => exact h.replaceText ..
  | succ hops => exact h.replaceText ..

theorem Alike.resolveJson (h : Alike c d) (env : Surroundings) (hops : Nat) (j : Json) :
    resolveJson (Configuration.resolveText env hops) c j
      = resolveJson (Configuration.resolveText env hops) d j := by
  cases j with
  | string s => exact h.resolveText env hops s
  | array items => simp only [Configuration.resolveJson, h.child]
  | object members => simp only [Configuration.resolveJson, h.child]
  | _ => rfl

/-- A walk through the same raw data leads to the same for both. -/
theorem Alike.walk (h : Alike c d) (env : Surroundings) (hops : Nat) (segs : List String) (j : Json) :
    walk (Configuration.resolveText env hops) segs (.raw c j)
      = walk (Configuration.resolveText env hops) segs (.raw d j) := by
  induction segs generalizing j with
  | nil => exact h.resolveJson env hops j
  | cons segment rest ih =>
      rw [Configuration.walk, Configuration.walk]
      by_cases hs : ∃ s, j = .string s
      · obtain ⟨s, rfl⟩ := hs
        simp only [settle, h.resolveText]
      · have here : ∀ e : Configuration, settle (Configuration.resolveText env hops) (.raw e j)
            = pure (some (.raw e j)) := by
          intro e
          cases j <;> first | rfl | exact absurd ⟨_, rfl⟩ hs
        rw [here, here, pure_bind, pure_bind]
        refine bind_congr fun heap => ?_
        dsimp only [step, stepRaw]
        cases j.child? segment with
        | none => rfl
        | some k => exact ih k

/-- A node that keeps what its data declares as data, and binds nothing. -/
def bare (c : Configuration) (data : Json) : Configuration :=
  { c with data, source := data, root? := some c.root }

theorem alike_bare (c : Configuration) (data : Json) : Alike (c.bare data) c := ⟨rfl, rfl, rfl, rfl, rfl⟩

/-- Data that declares nothing gives a child that binds nothing. -/
theorem child_eq_bare {data : Json} (h : ∀ ms, data = .object ms → ∀ m ∈ ms, isParameter m.1 = false) :
    c.child data = c.bare data := by
  have undeclared : splitParameters data = (data, []) := by
    cases data with
    | object ms =>
        have none : ms.partition (fun m => isParameter m.1) = ([], ms) := by
          rw [List.partition_eq_filter_filter, List.filter_eq_nil_iff.mpr, List.filter_eq_self.mpr]
          · intro m hm
            simp [h ms rfl m hm]
          · intro m hm
            simp [h ms rfl m hm]
        simp only [splitParameters, splitMembers, none, List.map_nil]
    | _ => rfl
  simp only [child, undeclared, if_true]
  rfl

/-! ## Reading along a path of two parts -/

/-- What the cursor stands at, as a value; an object becomes a node that binds nothing. -/
def arriveBare (resolve : Resolver) : Cursor → Run (Option Value)
  | .raw c (.object members) => return some (.configuration (c.bare (.object members)))
  | cursor => arrive resolve cursor

/-- The cursor stands at raw data that declares parameters. -/
def Cursor.declares : Cursor → Bool
  | .raw _ (.object members) => members.any fun m => isParameter m.1
  | _ => false

/-- What declares nothing is the same node either way. -/
theorem arriveBare_eq {cursor : Cursor} (h : cursor.declares = false) :
    arriveBare resolve cursor = arrive resolve cursor := by
  rcases cursor with _ | ⟨c, j⟩
  · rfl
  · cases j with
    | object ms =>
        have none : ∀ m ∈ ms, isParameter m.1 = false := by simpa [Cursor.declares] using h
        have same : c.child (.object ms) = c.bare (.object ms) := child_eq_bare (by
          rintro _ ⟨⟩
          exact none)
        simp only [arriveBare, arrive, Configuration.resolveJson, same]
    | _ => rfl

/-- A walk goes on from raw data as it does from the node that this is without binding anything. -/
theorem walk_eq_arriveBare (env : Surroundings) (hops : Nat) {next : String} (hn : next ≠ "")
    (rest : List String) (cursor : Cursor) :
    walk (resolveText env hops) (next :: rest) cursor
      = arriveBare (resolveText env hops) cursor >>=
        readOn fun v => walk (resolveText env hops) (next :: rest) (.value v) := by
  have goes : ¬ (next = "" ∧ rest = []) := fun h => hn h.1
  -- a node and its data are walked alike
  have node : ∀ d : Configuration, d.data.isContainer = true →
      walk (resolveText env hops) (next :: rest) (.value (.configuration d))
        = walk (resolveText env hops) (next :: rest) (.raw d d.data) := by
    intro d hd
    simp only [walk, settle, pure_bind, step, stepValue, if_neg goes]
    cases h : d.data with
    | string s => rw [h] at hd; exact absurd hd Bool.false_ne_true
    | _ => rfl
  rcases cursor with v | ⟨c, j⟩
  · rfl
  · cases j with
    | string s =>
        show walk _ _ _ = resolveText env hops c s >>= _
        simp only [walk, settle, bind_assoc]
        refine bind_congr fun v => ?_
        cases v <;> rfl
    | object ms =>
        have same := (alike_bare c (.object ms)).walk env hops (next :: rest) (.object ms)
        show _ = walk _ _ (.value (.configuration (c.bare (.object ms))))
        rw [node _ rfl, ← same]
        rfl
    | array items =>
        have child : c.child (.array items) = c.bare (.array items) := child_eq_bare (by simp)
        have same := (alike_bare c (.array items)).walk env hops (next :: rest) (.array items)
        show _ = walk _ _ (.value (.configuration (c.child (.array items))))
        rw [child, node _ rfl, ← same]
        rfl
    | _ =>
        simp only [arriveBare, arrive, Configuration.resolveJson, pure_bind, readOn, Value.ofJson]
        simp only [walk, settle, pure_bind, step, stepRaw, Json.child?, stepValue, if_neg goes]
        rfl

/-- Where a path of a node leads. -/
def locateAt (env : Surroundings) (hops : Nat) (c : Configuration) (path : String) : Run (Option Cursor) :=
  locate (resolveText env hops) (segments path) (.value (.configuration c))

/-- The value at a path of a node, where an object that is data becomes a node that binds nothing. -/
def valueAtBare (env : Surroundings) (hops : Nat) (c : Configuration) (path : String) :
    Run (Option Value) :=
  c.locateAt env hops path >>= readOn (arriveBare (resolveText env hops))

/-- What a path leads to is read without binding anything as it is read otherwise, unless it declares
parameters. -/
theorem valueAtBare_run (env : Surroundings) (hops : Nat) (c : Configuration) (path : String) {s : Session}
    (h : ∀ cursor t, c.locateAt env hops path s = some (some cursor, t) → cursor.declares = false) :
    (c.valueAtBare env hops path).run s = (c.valueAt env hops path).run s := by
  have read : c.valueAt env hops path
      = c.locateAt env hops path >>= readOn (arrive (resolveText env hops)) := walk_eq_locate _ _
  rw [read, valueAtBare]
  refine Run.run_bind_congr_right fun found t hf => ?_
  cases found with
  | none => rfl
  | some cursor => rw [readOn, arriveBare_eq (h cursor t hf), readOn]

/-- Reading along a path of two parts is reading along the first and then, from what is there, along the
second, where an object at the end of the first part becomes a node that binds nothing. So it is reading
step by step, node after node, unless the first part leads to an object that declares parameters: these the
node binds, whereas a walk through the object does not know them. -/
theorem valueAt_join (env : Surroundings) (hops : Nat) (c : Configuration) {p q : String} (hp : Solid p)
    (hq : Solid q) :
    c.valueAt env hops (p ++ "." ++ q)
        = (c.valueAtBare env hops p >>= readOn fun v => v.atPath env hops q) ∧
      ∀ s, (∀ cursor t, c.locateAt env hops p s = some (some cursor, t) → cursor.declares = false) →
        (c.valueAt env hops (p ++ "." ++ q)).run s
          = (c.valueAt env hops p >>= readOn fun v => v.atPath env hops q).run s := by
  obtain ⟨next, rest, hs⟩ := List.exists_cons_of_ne_nil (segments_ne_nil q)
  have hn : next ≠ "" := hq next (hs ▸ List.mem_cons_self)
  have joined : c.valueAt env hops (p ++ "." ++ q)
      = (c.valueAtBare env hops p >>= readOn fun v => v.atPath env hops q) := by
    rw [valueAt, follow, segments_join, hs, walk_append hp hn rest, valueAtBare, locateAt, bind_assoc]
    refine bind_congr fun found => ?_
    cases found with
    | none => rfl
    | some cursor =>
        simp only [readOn, walk_eq_arriveBare env hops hn rest cursor, Value.atPath, follow, hs]
  refine ⟨joined, fun s h => ?_⟩
  rw [joined]
  exact Run.run_bind_congr_left (valueAtBare_run env hops c p h) _

/-- A node with a map, in which a text refers to a parameter of the root. -/
def bindingRoot : Configuration :=
  .make (.object [("$x", .number (.ofInt 1)), ("a", .object [("b", .string "$x")])]) .standard

/-- A node with a map that declares a parameter itself, to which a text in it refers. -/
def bindingMap : Configuration :=
  .make (.object [("a", .object [("$x", .number (.ofInt 1)), ("b", .string "$x")])]) .standard

/-- The whole number that a read gives, if it gives one. -/
def numberRead? (x : Run (Option Value)) : Option (Option Int) :=
  (x.run Session.start).1.map (·.bind Value.wholeNumber?)

theorem valueAt_join_bindingRoot :
    Solid "a" ∧ Solid "b" ∧
      (bindingRoot.valueAt (.ofHost .bare) depthLimit "a.b").run Session.start
        = (bindingRoot.valueAt (.ofHost .bare) depthLimit "a" >>= readOn fun v =>
            v.atPath (.ofHost .bare) depthLimit "b").run Session.start ∧
      numberRead? (bindingRoot.valueAt (.ofHost .bare) depthLimit "a.b") = some (some 1) := by
  have first : Solid "a" := by decide +kernel
  have second : Solid "b" := by decide +kernel
  have undeclared : ((bindingRoot.locateAt (.ofHost .bare) depthLimit "a").run Session.start).1.any
      (·.any Cursor.declares) = false := by decide +kernel
  refine ⟨first, second, (valueAt_join _ _ bindingRoot first second).2 _ fun cursor t h => ?_,
    by decide +kernel⟩
  rw [Run.ended_iff.mp h] at undeclared
  exact undeclared

/-- Read in one go the text in the map has no value, since the walk does not know the parameter; read step by
step it has the value that the map declares. -/
theorem not_valueAt_join :
    ¬ ∀ (env : Surroundings) (c : Configuration) (p q : String), Solid p → Solid q →
      c.valueAt env depthLimit (p ++ "." ++ q)
        = (c.valueAt env depthLimit p >>= readOn fun v => v.atPath env depthLimit q) := by
  intro composes
  have same := congrArg numberRead? (composes (.ofHost .bare) bindingMap "a" "b" (by decide +kernel)
    (by decide +kernel))
  have unbound : numberRead? (bindingMap.valueAt (.ofHost .bare) depthLimit ("a" ++ "." ++ "b"))
      = some none := by decide +kernel
  have bound : numberRead? (bindingMap.valueAt (.ofHost .bare) depthLimit "a" >>= readOn fun v =>
      v.atPath (.ofHost .bare) depthLimit "b") = some (some 1) := by decide +kernel
  rw [unbound, bound] at same
  exact absurd same (by decide)

end Configuration

end ObjectGraph
