import ObjectGraph.Log.Capture
import Mathlib.Data.List.DropRight
import Mathlib.Data.List.ReduceOption

/-!
# `Proofs.Retention` — which events a capture buffer keeps

A buffer is asked to record events and to be cleared, in any order. What it then holds is told by what it
was asked, without running it: the events recorded since the last time it was cleared, of those the ones
that concern it, and of those the newest, as many as there is room for. The others of them it has dropped.

Contents:
* `Capture.Request`, `Capture.serve`, `Capture.after`;
* `Event.Concerns`, `Capture.recent`;
* `Capture.Keeps` and what `record` and `clear` do to it;
* `Capture.newest_kept`.
-/

namespace ObjectGraph.Log

/-! ## What concerns a buffer -/

/-- The event's target begins with the prefix, if there is one. -/
def Event.Concerns (targetPrefix : Option String) (e : Event) : Prop :=
  ∀ p ∈ targetPrefix, p.toList <+: e.target.toList

instance (targetPrefix : Option String) (e : Event) : Decidable (e.Concerns targetPrefix) :=
  inferInstanceAs (Decidable (∀ p ∈ targetPrefix, p.toList <+: e.target.toList))

namespace Capture

/-- A buffer admits the events that concern it. -/
theorem admits_iff {c : Capture} {e : Event} : c.admits e = true ↔ e.Concerns c.targetPrefix := by
  unfold admits Event.Concerns
  cases c.targetPrefix with
  | none => simp
  | some p => simp

/-! ## Being asked -/

/-- What a buffer is asked to do. -/
inductive Request where
  | record (e : Event)
  | clear
  deriving DecidableEq, Repr

namespace Request

/-- The event to be recorded. -/
def event? : Request → Option Event
  | record e => some e
  | clear => none

/-- The request is about an event that concerns the buffer, or about the whole of it. -/
def Concerns (targetPrefix : Option String) (r : Request) : Prop :=
  ∀ e ∈ r.event?, e.Concerns targetPrefix

instance (targetPrefix : Option String) (r : Request) : Decidable (r.Concerns targetPrefix) :=
  inferInstanceAs (Decidable (∀ e ∈ r.event?, e.Concerns targetPrefix))

end Request

/-- The buffer after a request. -/
def serve (c : Capture) : Request → Capture
  | .record e => c.record e
  | .clear => c.clear

/-- The buffer after a row of requests. -/
def after (c : Capture) (rs : List Request) : Capture := rs.foldl serve c

theorem after_append (c : Capture) (rs : List Request) (r : Request) :
    c.after (rs ++ [r]) = (c.after rs).serve r := by
  show (rs ++ [r]).foldl serve c = _
  rw [List.foldl_append]
  rfl

@[simp] theorem targetPrefix_record (c : Capture) (e : Event) :
    (c.record e).targetPrefix = c.targetPrefix := by
  unfold record
  split
  · rfl
  · split
    · rfl
    · split <;> rfl

@[simp] theorem targetPrefix_serve (c : Capture) (r : Request) :
    (c.serve r).targetPrefix = c.targetPrefix := by
  cases r with
  | record e => exact targetPrefix_record c e
  | clear => rfl

@[simp] theorem capacity_serve (c : Capture) (r : Request) : (c.serve r).capacity = c.capacity := by
  cases r with
  | record e => exact capacity_record c e
  | clear => rfl

theorem capacity_after (c : Capture) (rs : List Request) : (c.after rs).capacity = c.capacity := by
  induction rs generalizing c with
  | nil => rfl
  | cons r rs ih => exact (ih (c.serve r)).trans (capacity_serve c r)

theorem targetPrefix_after (c : Capture) (rs : List Request) :
    (c.after rs).targetPrefix = c.targetPrefix := by
  induction rs generalizing c with
  | nil => rfl
  | cons r rs ih => exact (ih (c.serve r)).trans (targetPrefix_serve c r)

/-- A request that does not concern a buffer leaves it as it is. -/
theorem serve_of_not_concerns {c : Capture} {r : Request} (h : ¬ r.Concerns c.targetPrefix) :
    c.serve r = c := by
  cases r with
  | clear => exact absurd (by intro e he; cases he) h
  | record e =>
      have hadmits : c.admits e = false := by
        rw [Bool.eq_false_iff, ne_eq, admits_iff]
        intro he
        exact h fun _ he' => Option.some.inj he' ▸ he
      show c.record e = c
      simp [record, hadmits]

/-- Requests that do not concern a buffer may be left out. -/
theorem after_filter_concerns (c : Capture) (rs : List Request) :
    c.after (rs.filter (·.Concerns c.targetPrefix)) = c.after rs := by
  induction rs generalizing c with
  | nil => rfl
  | cons r rs ih =>
      have later : (c.serve r).after (rs.filter (·.Concerns c.targetPrefix)) = (c.serve r).after rs := by
        rw [← targetPrefix_serve c r]
        exact ih (c.serve r)
      by_cases h : r.Concerns c.targetPrefix
      · rw [List.filter_cons_of_pos (by simpa using h)]
        exact later
      · rw [List.filter_cons_of_neg (by simpa using h)]
        show _ = (c.serve r).after rs
        rw [← later, serve_of_not_concerns h]

/-! ## What was asked since the last time it was cleared -/

/-- The events to be recorded since the last time the buffer was cleared, the oldest first. -/
def recent (rs : List Request) : List Event :=
  ((rs.reverse.map Request.event?).takeWhile Option.isSome).reduceOption.reverse

theorem recent_append_record (rs : List Request) (e : Event) :
    recent (rs ++ [.record e]) = recent rs ++ [e] := by
  simp [recent, Request.event?, List.reduceOption_cons_of_some]

theorem recent_append_clear (rs : List Request) : recent (rs ++ [.clear]) = [] := by
  simp [recent, Request.event?]

/-! ## What is kept -/

/-- Of the events told, the oldest first, the newest are kept and the others counted. -/
structure Keeps (c : Capture) (told : List Event) : Prop where
  events : c.events = told.drop (told.length - c.capacity)
  dropped : c.dropped = told.length - c.capacity

namespace Keeps

variable {c : Capture} {told : List Event}

theorem start (targetPrefix : Option String) (capacity : Nat) :
    (Capture.start targetPrefix capacity).Keeps [] :=
  ⟨List.drop_nil.symm, (Nat.zero_sub capacity).symm⟩

theorem clear (c : Capture) : c.clear.Keeps [] :=
  ⟨List.drop_nil.symm, (Nat.zero_sub c.capacity).symm⟩

theorem length_events (h : c.Keeps told) : c.events.length = min told.length c.capacity := by
  rw [h.events, List.length_drop]
  omega

/-- An event that concerns the buffer is the newest of those it has been told. -/
theorem record (h : c.Keeps told) {e : Event} (he : e.Concerns c.targetPrefix) :
    (c.record e).Keeps (told ++ [e]) := by
  have hlength := h.length_events
  unfold Capture.record
  rw [if_neg (by simp [admits_iff.mpr he])]
  split
  case isTrue hroom =>
      constructor
      · show c.events = (told ++ [e]).drop ((told ++ [e]).length - c.capacity)
        rw [hroom, Nat.sub_zero, List.drop_length, h.events, hroom, Nat.sub_zero, List.drop_length]
      · show c.dropped + 1 = (told ++ [e]).length - c.capacity
        rw [h.dropped, List.length_append, List.length_singleton]
        omega
  case isFalse hroom =>
      split
      case isTrue hfull =>
          -- all the places are taken, so at least as many events were told
          constructor
          · show c.events.drop 1 ++ [e] = (told ++ [e]).drop ((told ++ [e]).length - c.capacity)
            have hfirst : told.length - c.capacity + 1 = told.length + 1 - c.capacity := by omega
            rw [h.events, List.drop_drop, List.length_append, List.length_singleton, ← hfirst,
              List.drop_append_of_le_length (by omega)]
          · show c.dropped + 1 = (told ++ [e]).length - c.capacity
            rw [h.dropped, List.length_append, List.length_singleton]
            omega
      case isFalse hfull =>
          -- a place is free, so no event was dropped
          have hfew : told.length < c.capacity := by omega
          constructor
          · show c.events ++ [e] = (told ++ [e]).drop ((told ++ [e]).length - c.capacity)
            rw [h.events, List.length_append, List.length_singleton, Nat.sub_eq_zero_of_le hfew,
              Nat.sub_eq_zero_of_le hfew.le, List.drop_zero, List.drop_zero]
          · show c.dropped = (told ++ [e]).length - c.capacity
            rw [h.dropped, List.length_append, List.length_singleton]
            omega

end Keeps

/-- What a buffer has been told after some requests. -/
def told (targetPrefix : Option String) (rs : List Request) : List Event :=
  (recent rs).filter (·.Concerns targetPrefix)

/-- A request keeps the newest of what the buffer has been told. -/
theorem Keeps.serve {c : Capture} {rs : List Request} (h : c.Keeps (told c.targetPrefix rs)) (r : Request) :
    (c.serve r).Keeps (told c.targetPrefix (rs ++ [r])) := by
  cases r with
  | clear =>
      show c.clear.Keeps ((recent (rs ++ [.clear])).filter _)
      rw [recent_append_clear]
      exact Keeps.clear c
  | record e =>
      show (c.record e).Keeps ((recent (rs ++ [.record e])).filter _)
      rw [recent_append_record, List.filter_append]
      by_cases he : e.Concerns c.targetPrefix
      · rw [List.filter_cons_of_pos (by simpa using he), List.filter_nil]
        exact h.record he
      · rw [List.filter_cons_of_neg (by simpa using he), List.filter_nil, List.append_nil]
        have hsame : c.serve (.record e) = c :=
          serve_of_not_concerns fun hc => he (hc e rfl)
        show (c.serve (.record e)).Keeps _
        rw [hsame]
        exact h

/-- A buffer that starts empty keeps the newest of what it has been told, after any requests. -/
theorem keeps_after (targetPrefix : Option String) (capacity : Nat) (rs : List Request) :
    ((start targetPrefix capacity).after rs).Keeps (told targetPrefix rs) := by
  -- from the end of the row, where the last request is
  induction rs using List.reverseRecOn with
  | nil => exact Keeps.start targetPrefix capacity
  | append_singleton rs r ih =>
      rw [after_append]
      have constantPrefix := targetPrefix_after (start targetPrefix capacity) rs
      have ih : ((start targetPrefix capacity).after rs).Keeps
          (told ((start targetPrefix capacity).after rs).targetPrefix rs) := by
        rw [constantPrefix]
        exact ih
      have step := ih.serve r
      rw [constantPrefix] at step
      exact step

/-- After any requests, a buffer holds the last of the `m` events that concern it and were recorded since
it was last cleared, as many as it has room for and in their order, and has dropped the others of them.
Events that do not concern it make no difference. -/
theorem newest_kept (targetPrefix : Option String) (capacity : Nat) (rs : List Request) :
    let c := (start targetPrefix capacity).after rs
    let concerning := (recent rs).filter (·.Concerns targetPrefix)
    let m := concerning.length
    c.events = concerning.rtake (min capacity m) ∧ c.dropped = m - min capacity m ∧
      (start targetPrefix capacity).after (rs.filter (·.Concerns targetPrefix)) = c := by
  intro c concerning m
  have hkeeps : c.Keeps concerning := keeps_after targetPrefix capacity rs
  have hcapacity : c.capacity = capacity := capacity_after (start targetPrefix capacity) rs
  have hpast : m - capacity = m - min capacity m := by omega
  refine ⟨?_, ?_, ?_⟩
  · show c.events = concerning.drop (m - min capacity m)
    rw [hkeeps.events, hcapacity, hpast]
  · rw [hkeeps.dropped, hcapacity, hpast]
  · exact after_filter_concerns (start targetPrefix capacity) rs

end Capture

end ObjectGraph.Log
