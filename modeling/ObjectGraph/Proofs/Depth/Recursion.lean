import ObjectGraph.Proofs.Depth.Bound
import ObjectGraph.Proofs.Reading

/-!
# `Proofs.Depth.Recursion` — reading comes to an end

A text on the way along a path may refer to the root, and what is read there may be longer than what is left of the
path. So reading is a recursion whose calls get no shorter. What ends it is a counter: a reference is followed only
if fewer than a bound are being followed already, and the counter goes back when the reference has been read.

Here the recursion is spelled out as that (`pursue`): each call, whether for another step of a path or for a reference,
takes one of a number of calls that are granted, the counter is part of the state, and the highest count is kept.
Whatever is read, so many calls are enough: the references that may still be followed bound how deep the recursion
goes, and between two of them the path gets shorter with each call. With enough calls the recursion does what reading
does, and the count has never been above the bound.

Contents:
* `Nesting`, `Nested`; `enter`, `leave`;
* the recursion: `followNested`, `replaceNested`, `pursue`, `pursueAs`;
* `Pursues` and its rules; `replaceText_pursues`, `walk_pursues`;
* `readAs_terminates`, `readAs_terminates_tangle`.
-/

namespace ObjectGraph

open Run (Ends)

/-- How many references to the root are being followed, each inside the one before, and how many have been at
most. -/
structure Nesting where
  active : Nat
  deepest : Nat

/-- A run that counts the references to the root. -/
abbrev Nested := StateT Nesting Run

namespace Configuration

/-! ## The recursion -/

/-- Enters a reference, unless too many are being followed. -/
def enter : Nested Bool := do
  let nesting ← get
  if depthLimit ≤ nesting.active then return false
  else do
    set (⟨nesting.active + 1, max nesting.deepest (nesting.active + 1)⟩ : Nesting)
    return true

/-- Leaves a reference. -/
def leave : Nested Unit := modify fun nesting => ⟨nesting.active - 1, nesting.deepest⟩

/-- Follows a reference to the root, if it may be entered. -/
def followNested (read : Configuration → String → Nested (Option Value)) (c : Configuration)
    (path literal : String) : Nested (Option Value) := do
  if ← enter then do
    let found ← read c.root path
    let v ← followRoot (some fun _ _ => pure found) c path literal
    leave
    return v
  else followRoot none c path literal

/-- What comes of a parameter that is not bound: nothing. -/
def unbound (current : String) : Run (Option Value) := do
  Run.report .debug target "context parameter not bound" [("parameter", .shown current)]
  return none

/-- Resolves a text; `n` is how many more replacements there may be. -/
def replaceNested (env : Surroundings) (read : Configuration → String → Nested (Option Value)) (c : Configuration)
    (supplied : String) : Nat → String → Nested (Option Value)
  | 0, _ => unsettled supplied
  | n + 1, current => do
      match current.toList with
      | '$' :: _ =>
          match c.context.lookup current with
          | some (.string next) => replaceNested env read c supplied n next
          | some v => return some v
          | none => unbound current
      | '?' :: rest => do
          let heap ← Run.heap
          let template := String.ofList rest
          reportUnbound (Template.unbound heap c.context template)
          replaceNested env read c supplied n (Template.expand heap c.context template)
      | '@' :: rest => do
          c.handler.dereferenceText env (depthLimit - (← get).active) (String.ofList rest)
      | '#' :: rest => followNested read c (String.ofList rest) current
      | '\x60' :: rest => return some (.string (String.ofList rest))
      | _ => return some (.string current)

/-- What the cursor stands at, as a value. -/
def arriveNested (resolve : Configuration → String → Nested (Option Value)) : Cursor → Nested (Option Value)
  | .raw c (.string s) => resolve c s
  | cursor => arrive (fun _ _ => pure none) cursor

/-- The cursor before a further step. -/
def settleNested (resolve : Configuration → String → Nested (Option Value)) : Cursor → Nested (Option Cursor)
  | .raw c (.string s) => do return (← resolve c s).map .value
  | cursor => return some cursor

/-- What a walk does with a settled cursor: a step, and then what is to be done where that leads. -/
def stepNested (go : Cursor → Nested (Option Value)) (segment : String) (rest : List String) :
    Option Cursor → Nested (Option Value)
  | none => return none
  | some cursor => do
      match step (← Run.heap) segment rest cursor with
      | none => return none
      | some (.stop v) => return some v
      | some (.go next) => go next

/-- Walks along a path by as many calls, which may refer to the root as they like. -/
def pursue (env : Surroundings) : Nat → List String → Cursor → Nested (Option Value)
  | 0, _, _ => Run.exhausted
  | calls + 1, path, cursor =>
      let read root path := pursue env calls (segments path) (.value (.configuration root))
      let resolve c s := replaceNested env read c s depthLimit s
      match path with
      | [] => arriveNested resolve cursor
      | segment :: rest => settleNested resolve cursor >>= stepNested (pursue env calls rest) segment rest

/-- Reads a path in a representation by as many calls. -/
def pursueAs (env : Surroundings) (calls : Nat) (c : Configuration) (path : String) (r : Representation) :
    Nested (Option Value) := do
  match ← pursue env calls (segments path) (.value (.configuration c)) with
  | none => return none
  | some v => return c.represent env.host (← Run.heap) v r

/-! ## Enough calls -/

variable {α β : Type} {hops : Nat} {x : Run α} {y : Nat → Nested α} {env : Surroundings}

/-- As long as so many more references may be followed, the second run ends as the first does if it is granted
enough calls. The count goes back to what it was, and has been below the bound. -/
def Pursues (hops : Nat) (x : Run α) (y : Nat → Nested α) : Prop :=
  ∀ nesting s, nesting.active + hops = depthLimit → nesting.deepest ≤ depthLimit →
    ∃ a t deepest calls, x s = some (a, t) ∧ deepest ≤ depthLimit ∧
      ∀ n ≥ calls, (y n).run nesting s = some ((a, ⟨nesting.active, deepest⟩), t)

namespace Pursues

theorem pure (a : α) : Pursues hops (Pure.pure a) fun _ => Pure.pure a := by
  intro nesting s _ low
  exact ⟨a, s, nesting.deepest, 0, rfl, low, fun _ _ => rfl⟩

theorem bind {f : α → Run β} {g : α → Nat → Nested β} (hx : Pursues hops x y)
    (hf : ∀ a, Pursues hops (f a) (g a)) : Pursues hops (x >>= f) fun n => y n >>= fun a => g a n := by
  intro nesting s room low
  obtain ⟨a, t, deeper, some, first, low, counted⟩ := hx nesting s room low
  obtain ⟨b, u, deepest, more, second, low, after⟩ := hf a ⟨nesting.active, deeper⟩ t room low
  refine ⟨b, u, deepest, max some more, Run.ended_row first second, low, ?_⟩
  intro n enough
  exact Run.ended_row (counted n (Nat.le_trans (Nat.le_max_left _ _) enough))
    (after n (Nat.le_trans (Nat.le_max_right _ _) enough))

/-- A run that ends needs no calls. -/
theorem lift (ends : Ends x fun _ => True) : Pursues hops x fun _ => liftM x := by
  intro nesting s _ low
  obtain ⟨a, t, ended, -⟩ := (ends s).ends fun _ => id
  refine ⟨a, t, nesting.deepest, 0, ended, low, ?_⟩
  intro n _
  exact Run.ended_row ended rfl

/-- One call is taken. -/
theorem call (h : Pursues hops x y) {z : Nat → Nested α} (one : ∀ n, z (n + 1) = y n) : Pursues hops x z := by
  intro nesting s room low
  obtain ⟨a, t, deepest, calls, ended, low, counted⟩ := h nesting s room low
  refine ⟨a, t, deepest, calls + 1, ended, low, ?_⟩
  intro n enough
  obtain ⟨n, rfl⟩ := Nat.exists_eq_add_of_le' (Nat.le_trans (Nat.le_add_left 1 calls) enough)
  rw [one]
  exact counted n (Nat.le_of_succ_le_succ enough)

/-- A run may do the same in another way. -/
theorem congr (h : Pursues hops x y) {z : Nat → Nested α} (same : ∀ n, z n = y n) : Pursues hops x z := by
  rw [funext same]
  exact h

/-- How many more references may be followed is told by the count. -/
theorem room {f : Nat → Run α} (ends : ∀ k, Ends (f k) fun _ => True) :
    Pursues hops (f hops) fun _ => get >>= fun nesting => liftM (f (depthLimit - nesting.active)) := by
  intro nesting s room low
  have left : depthLimit - nesting.active = hops := by omega
  have lifted := Pursues.lift (ends hops) nesting s room low
  rw [← left] at lifted ⊢
  exact lifted

end Pursues

theorem run_enter_of_le {nesting : Nesting} (full : depthLimit ≤ nesting.active) :
    enter.run nesting = pure (false, nesting) := by
  show (if depthLimit ≤ nesting.active then (pure false : Nested Bool) else _).run nesting = _
  rw [if_pos full]
  rfl

theorem run_enter_of_lt {nesting : Nesting} (room : nesting.active < depthLimit) :
    enter.run nesting = pure (true, ⟨nesting.active + 1, max nesting.deepest (nesting.active + 1)⟩) := by
  show (if depthLimit ≤ nesting.active then (pure false : Nested Bool) else _).run nesting = _
  rw [if_neg (Nat.not_le.mpr room)]
  rfl

theorem followRoot_ends {back : Option Resolver} (hb : ∀ read ∈ back, ∀ c s, Ends (read c s) fun _ => True)
    (c : Configuration) (path literal : String) : Ends (followRoot back c path literal) fun _ => True := by
  cases back with
  | none => exact (Ends.report _ _ _ _).bind fun _ _ => .pure trivial
  | some read =>
      refine (hb read rfl c.root path).bind fun found _ => ?_
      cases found with
      | some v => exact .pure trivial
      | none =>
          show Ends (if c.strict = true then _ else _) _
          split
          · exact (Ends.report _ _ _ _).bind fun _ _ => .pure trivial
          · exact (Ends.report _ _ _ _).bind fun _ _ => .pure trivial

/-- No reference is entered if none may be followed any more. -/
theorem followRoot_none_pursues (read : Nat → Configuration → String → Nested (Option Value)) (c : Configuration)
    (path literal : String) :
    Pursues 0 (followRoot none c path literal) fun n => followNested (read n) c path literal := by
  intro nesting s room low
  have full : depthLimit ≤ nesting.active := Nat.le_of_eq room.symm
  obtain ⟨a, t, deepest, calls, ended, low, counted⟩ :=
    Pursues.lift (@followRoot_ends none (fun _ h => absurd h (by simp)) c path literal) nesting s room low
  refine ⟨a, t, deepest, calls, ended, low, ?_⟩
  intro n enough
  have refused : (followNested (read n) c path literal).run nesting
      = (liftM (followRoot none c path literal) : Nested (Option Value)).run nesting := by
    rw [followNested, StateT.run_bind, run_enter_of_le full, pure_bind]
    rfl
  rw [refused]
  exact counted n enough

/-- A reference that is followed is entered and left. -/
theorem followRoot_some_pursues {back : Resolver} {read : Nat → Configuration → String → Nested (Option Value)}
    (hr : ∀ root path, Pursues hops (back root path) fun n => read n root path) (c : Configuration)
    (path literal : String) :
    Pursues (hops + 1) (followRoot (some back) c path literal) fun n => followNested (read n) c path literal := by
  intro nesting s room low
  have less : nesting.active < depthLimit := by omega
  have inner : max nesting.deepest (nesting.active + 1) ≤ depthLimit := Nat.max_le.mpr ⟨low, less⟩
  obtain ⟨found, t, deepest, calls, ended, low, counted⟩ :=
    hr c.root path ⟨nesting.active + 1, max nesting.deepest (nesting.active + 1)⟩ s (by dsimp only; omega) inner
  have rest : Ends (followRoot (some fun _ _ => pure found) c path literal) fun _ => True := by
    refine followRoot_ends ?_ c path literal
    rintro _ ⟨⟩ _ _
    exact .pure trivial
  obtain ⟨v, u, last, -⟩ := (rest t).ends fun _ => id
  refine ⟨v, u, deepest, calls, Run.ended_row ended last, low, ?_⟩
  intro n enough
  show ((followNested (read n) c path literal).run nesting) s = _
  rw [followNested, StateT.run_bind, run_enter_of_lt less, pure_bind]
  exact Run.ended_row (counted n enough) (Run.ended_row (Run.ended_row last rfl) rfl)

/-- Resolving a text is pursued if following a reference is. -/
theorem replaceText_pursues (he : env.All fun _ x => Ends x fun _ => True) {back : Option Resolver}
    {read : Nat → Configuration → String → Nested (Option Value)} (c : Configuration)
    (hb : ∀ path literal, Pursues hops (followRoot back c path literal) fun n => followNested (read n) c path literal)
    (supplied : String) (k : Nat) (current : String) :
    Pursues hops (replaceText env back hops c supplied k current)
      fun n => replaceNested env (read n) c supplied k current := by
  induction k generalizing current with
  | zero => exact .lift ((Ends.report _ _ _ _).bind fun _ _ => .pure trivial)
  | succ k ih =>
      rw [replaceText]
      split
      next hl =>
        split
        next next hn => exact (ih next).congr fun n => by rw [replaceNested, hl]; simp only [hn]
        next v _ hv => exact (Pursues.pure _).congr fun n => by rw [replaceNested, hl]; simp only [hv]
        next hv =>
          have ends : Ends (unbound current) fun _ => True := (Ends.report _ _ _ _).bind fun _ _ => .pure trivial
          exact (Pursues.lift ends).congr fun n => by rw [replaceNested, hl]; simp only [hv]
      next rest hl =>
        refine Pursues.congr ?_ fun n => by rw [replaceNested, hl]
        exact .bind (.lift .heap) fun heap => .bind (.lift (reportUnbound_ends _)) fun _ => ih _
      next rest hl =>
        refine Pursues.congr ?_ fun n => by rw [replaceNested, hl]
        exact .room fun hops => Handler.dereferenceText_rowwise Ends.rowwise he c.handler hops _
      next rest hl => exact (hb _ _).congr fun n => by rw [replaceNested, hl]; rfl
      next rest hl => exact (Pursues.pure _).congr fun n => by rw [replaceNested, hl]; rfl
      next plain =>
        refine (Pursues.pure _).congr fun n => ?_
        rw [replaceNested]
        split
        all_goals simp_all

theorem arrive_pursues {resolve : Resolver} {resolves : Nat → Configuration → String → Nested (Option Value)}
    (hr : ∀ c s, Pursues hops (resolve c s) fun n => resolves n c s) (cursor : Cursor) :
    Pursues hops (arrive resolve cursor) fun n => arriveNested (resolves n) cursor := by
  match cursor with
  | .raw c (.string s) => exact hr c s
  | .value v => exact .lift (.pure trivial)
  | .raw c .null | .raw c (.bool _) | .raw c (.number _) | .raw c (.array _) | .raw c (.object _) =>
      exact .lift (.pure trivial)

theorem settle_pursues {resolve : Resolver} {resolves : Nat → Configuration → String → Nested (Option Value)}
    (hr : ∀ c s, Pursues hops (resolve c s) fun n => resolves n c s) (cursor : Cursor) :
    Pursues hops (settle resolve cursor) fun n => settleNested (resolves n) cursor := by
  match cursor with
  | .raw c (.string s) => exact .bind (hr c s) fun _ => .pure _
  | .value v => exact .pure _
  | .raw c .null | .raw c (.bool _) | .raw c (.number _) | .raw c (.array _) | .raw c (.object _) => exact .pure _

theorem step_pursues {go : Cursor → Run (Option Value)} {goes : Nat → Cursor → Nested (Option Value)}
    (hg : ∀ cursor, Pursues hops (go cursor) fun n => goes n cursor) (segment : String) (rest : List String)
    (settled : Option Cursor) :
    Pursues hops (match settled with
      | none => pure none
      | some cursor => Run.heap >>= fun heap => match step heap segment rest cursor with
        | none => pure none
        | some (.stop v) => pure (some v)
        | some (.go next) => go next) fun n => stepNested (goes n) segment rest settled := by
  cases settled with
  | none => exact .pure none
  | some cursor =>
      refine .bind (.lift .heap) fun heap => ?_
      cases step heap segment rest cursor with
      | none => exact .pure none
      | some move =>
          cases move with
          | stop v => exact .pure (some v)
          | go next => exact hg next

/-- Walking is pursued if resolving a text is, with one call for each step. -/
theorem walk_pursues_of {resolve : Resolver}
    (hr : ∀ c s, Pursues hops (resolve c s) fun n =>
      replaceNested env (fun root path => pursue env n (segments path) (.value (.configuration root))) c s depthLimit s)
    (path : List String) (cursor : Cursor) :
    Pursues hops (walk resolve path cursor) fun n => pursue env n path cursor := by
  induction path generalizing cursor with
  | nil => exact (arrive_pursues hr cursor).call fun _ => rfl
  | cons segment rest ih =>
      have steps := Pursues.bind (settle_pursues hr cursor) fun settled => step_pursues ih segment rest settled
      exact steps.call fun _ => rfl

/-- Reading is pursued however many references may be followed. -/
theorem walk_pursues (he : env.All fun _ x => Ends x fun _ => True) (hops : Nat) (path : List String)
    (cursor : Cursor) :
    Pursues hops (walk (resolveText env hops) path cursor) fun n => pursue env n path cursor := by
  induction hops generalizing path cursor with
  | zero =>
      refine walk_pursues_of ?_ path cursor
      intro c s
      exact replaceText_pursues he c (followRoot_none_pursues _ c) s depthLimit s
  | succ hops ih =>
      refine walk_pursues_of ?_ path cursor
      intro c s
      refine replaceText_pursues he c ?_ s depthLimit s
      exact followRoot_some_pursues (fun root path => ih (segments path) (.value (.configuration root))) c

/-- Every read ends. However many references are being followed already, the recursion ends with what is read if it
is granted enough calls, as many references are being followed after it as before, and never have more been followed
inside each other than the bound. -/
theorem readAs_terminates (he : env.All fun _ x => Ends x fun _ => True) (c : Configuration) (path : String)
    (r : Representation) {active : Nat} (le : active ≤ depthLimit) (s : Session) :
    ∃ v t deepest calls, c.readAs env (depthLimit - active) path r s = some (v, t) ∧ deepest ≤ depthLimit ∧
      ∀ n ≥ calls, (c.pursueAs env n path r).run ⟨active, active⟩ s = some ((v, ⟨active, deepest⟩), t) := by
  have whole : Pursues (depthLimit - active) (c.readAs env (depthLimit - active) path r)
      fun n => c.pursueAs env n path r := by
    refine .bind (walk_pursues he _ (segments path) (.value (.configuration c))) fun found => ?_
    cases found with
    | none => exact .pure none
    | some v => exact .bind (.lift .heap) fun heap => .pure _
  exact whole ⟨active, active⟩ s (by dsimp only; omega) le

/-- A root with references and a parameter that lead back to themselves. -/
def tangle : Configuration :=
  .make (.object [("a", .string "#a"), ("b", .string "#c.x"), ("c", .string "#b"), ("d", .string "$p"),
    ("$p", .string "$p")]) .empty

theorem readAs_terminates_tangle :
    (Surroundings.ofHost .bare).All (fun _ x => Ends x fun _ => True) ∧ 0 ≤ depthLimit ∧
      ∃ v t deepest calls, tangle.readAs (.ofHost .bare) (depthLimit - 0) "b.y" .default Session.start = some (v, t) ∧
        deepest ≤ depthLimit ∧ ∀ n ≥ calls,
          (tangle.pursueAs (.ofHost .bare) n "b.y" .default).run ⟨0, 0⟩ Session.start = some ((v, ⟨0, deepest⟩), t) := by
  have ends : (Surroundings.ofHost .bare).All fun _ x => Ends x fun _ => True := fun _ _ _ _ => .pure trivial
  exact ⟨ends, Nat.zero_le _, readAs_terminates ends tangle "b.y" .default (Nat.zero_le _) Session.start⟩

-- as many references as may be are followed inside each other
example : ((tangle.pursueAs (.ofHost .bare) 70 "a" .default).run ⟨0, 0⟩ Session.start).map
    (fun ended => (ended.1.2.active, ended.1.2.deepest)) = some (0, 32) := by
  decide +kernel

end Configuration

end ObjectGraph
