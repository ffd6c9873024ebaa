import ObjectGraph.Log

/-!
# `Log.Capture` — the newest events

A bounded buffer that keeps the newest events whose target begins with a prefix, and counts the
older ones it had to let go.

Contents:
* `Capture`, `admits`, `record`, `clear`;
* `recordAll`, and `length_recordAll_le`: the buffer never outgrows its capacity.
-/

namespace ObjectGraph.Log

/-- A buffer of events, the oldest first. -/
structure Capture where
  /-- What the targets of kept events begin with. -/
  targetPrefix : Option String
  /-- The most events kept. -/
  capacity : Nat
  events : List Event
  /-- How many events were let go since the last `clear`. -/
  dropped : Nat

namespace Capture

/-- How many events are kept if nothing else is said. -/
def defaultCapacity : Nat := 1024

/-- An empty buffer. -/
def start (targetPrefix : Option String) (capacity : Nat) : Capture :=
  ⟨targetPrefix, capacity, [], 0⟩

/-- The event's target begins with the prefix. -/
def admits (c : Capture) (e : Event) : Bool :=
  match c.targetPrefix with
  | some p => p.toList.isPrefixOf e.target.toList
  | none => true

/-- The buffer after an event. The oldest event goes if there is no room. -/
def record (c : Capture) (e : Event) : Capture :=
  if !c.admits e then c
  -- without any room the event itself is the oldest
  else if c.capacity = 0 then { c with dropped := c.dropped + 1 }
  else if c.events.length = c.capacity then
    { c with events := c.events.drop 1 ++ [e], dropped := c.dropped + 1 }
  else { c with events := c.events ++ [e] }

/-- The buffer after some events. -/
def recordAll (c : Capture) (es : List Event) : Capture := es.foldl record c

/-- The buffer without its events. -/
def clear (c : Capture) : Capture := { c with events := [], dropped := 0 }

/-- The lines of the kept events. -/
def lines (c : Capture) : List String := c.events.map Event.line

/-! ## Laws -/

@[simp] theorem capacity_record (c : Capture) (e : Event) : (c.record e).capacity = c.capacity := by
  unfold record; split
  · rfl
  · split
    · rfl
    · split <;> rfl

/-- Recording keeps a buffer within its capacity. -/
theorem length_record_le {c : Capture} (h : c.events.length ≤ c.capacity) (e : Event) :
    (c.record e).events.length ≤ c.capacity := by
  unfold record; split
  · exact h
  · split
    · exact h
    · split
      · simp only [List.length_append, List.length_drop, List.length_singleton]; omega
      · simp only [List.length_append, List.length_singleton]; omega

/-- A buffer that starts within its capacity stays within it. -/
theorem length_recordAll_le {c : Capture} (h : c.events.length ≤ c.capacity) (es : List Event) :
    (c.recordAll es).events.length ≤ c.capacity := by
  induction es generalizing c with
  | nil => exact h
  | cons e es ih =>
      have hr : (c.record e).events.length ≤ (c.record e).capacity := by
        rw [capacity_record]; exact length_record_le h e
      have := ih hr
      rwa [capacity_record] at this

end Capture

end ObjectGraph.Log
