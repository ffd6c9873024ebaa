import ObjectGraph.Configuration

/-!
# `Configuration.Scope` — contexts that are one and the same

A context that a computation makes has scope zero, like any other that it makes. When its result is
kept, each of these contexts gets the scope of that result and its place there, and is known by both
from then on: what is read twice from a kept configuration sees one context, what two computations
make sees two.

Contents:
* `Origin.keep`, `Value.keep`, `Configuration.keep`;
* `Origin.keep_keep`, `origin_keep`, `sharesContext_keep`: what is kept stays as it is.
-/

namespace ObjectGraph

/-- An origin in a scope and at a place, unless it has them. -/
def Origin.keep (scope : Nat) (place : List Place) (o : Origin) : Origin :=
  if o.scope = 0 then ⟨scope, place, o.depth⟩ else o

mutual

/-- A value as it is kept at a place. -/
def Value.keep (scope : Nat) (place : List Place) : Value → Value
  | .list items => .list (Value.keepItems scope place 0 items)
  | .map entries => .map (Value.keepEntries scope place entries)
  | .configuration c => .configuration (Configuration.keepAt scope place c)
  | v => v

/-- The items of a list, from position `i` on, as they are kept. -/
def Value.keepItems (scope : Nat) (place : List Place) (i : Nat) : List Value → List Value
  | [] => []
  | v :: vs => Value.keep scope (.index i :: place) v :: Value.keepItems scope place (i + 1) vs

/-- The entries of a map or a context as they are kept. -/
def Value.keepEntries (scope : Nat) (place : List Place) :
    List (String × Value) → List (String × Value)
  | [] => []
  | (k, v) :: es => (k, Value.keep scope (.key k :: place) v) :: Value.keepEntries scope place es

/-- A configuration as it is kept at a place. Its root is kept at the same place, since what both of
them see under one name is one value. -/
def Configuration.keepAt (scope : Nat) (place : List Place) : Configuration → Configuration
  | ⟨data, source, context, origin, root?, handler, strict⟩ =>
      ⟨data, source, Value.keepEntries scope place context, origin.keep scope place,
        Configuration.keepRoot scope place root?, handler, strict⟩

/-- A root as it is kept. -/
def Configuration.keepRoot (scope : Nat) (place : List Place) :
    Option Configuration → Option Configuration
  | none => none
  | some c => some (Configuration.keepAt scope place c)

end

/-- The configuration as it is kept: the contexts made on the way to it get a scope of their own. -/
def Configuration.keep (scope : Nat) (c : Configuration) : Configuration :=
  Configuration.keepAt scope [] c

/-! ## Laws -/

/-- An origin that has been kept stays as it is. -/
theorem Origin.keep_keep {scope other : Nat} (h : scope ≠ 0) (place there : List Place) (o : Origin) :
    (o.keep scope place).keep other there = o.keep scope place := by
  unfold Origin.keep
  by_cases ho : o.scope = 0
  · rw [if_pos ho, if_neg h]
  · rw [if_neg ho, if_neg ho]

/-- Keeping a configuration keeps the origin of its context. -/
theorem Configuration.origin_keep (scope : Nat) (c : Configuration) :
    (c.keep scope).origin = c.origin.keep scope [] := by
  cases c
  rw [Configuration.keep, Configuration.keepAt]

/-- Configurations that share a context still do when both are kept. -/
theorem Configuration.sharesContext_keep {scope : Nat} {a b : Configuration}
    (h : a.sharesContext b = true) : (a.keep scope).sharesContext (b.keep scope) = true := by
  have hab : a.origin = b.origin := eq_of_beq h
  rw [Configuration.sharesContext, Configuration.origin_keep, Configuration.origin_keep, hab]
  exact beq_self_eq_true _

end ObjectGraph
