import ObjectGraph.Number.Binary64

/-!
# `Number.Shortest` — the fewest digits that identify a number

The reals that round to a number `x` form an interval around it; its ends belong to it when the
significand is even. The shortest decimal of `x` is found grid by grid: for one, two, … digits the
two neighbours of `x` on the grid of so many digits are tried, and the first grid with a neighbour
in the interval wins; of two hits the nearer, of two equally near the even one.

All comparisons are made in whole numbers: everything is scaled by four times the units of
`Binary64`, so that the halfway points to the neighbours are whole.

Contents:
* `Decimal`: digits and the exponent of the leading one;
* `Binary64.lower`, `Binary64.upper`, `Binary64.holds`: the interval;
* `Binary64.shortest`.
-/

namespace ObjectGraph

/-- The decimal `digits · 10 ^ exponent`. -/
structure Decimal where
  digits : Nat
  exponent : Int
  deriving DecidableEq, Repr

namespace Binary64

/-- Four times the magnitude, in units. -/
def scaled (x : Binary64) : Nat := 4 * x.magnitude

/-- Four times the halfway point to the next smaller number. -/
def lower (x : Binary64) : Nat :=
  -- just below a power of two the numbers lie twice as close
  if x.significand = Nat.pow 2 52 ∧ 0 < x.exponent then x.scaled - Nat.pow 2 x.exponent
  else x.scaled - 2 * Nat.pow 2 x.exponent

/-- Four times the halfway point to the next larger number. -/
def upper (x : Binary64) : Nat := x.scaled + 2 * Nat.pow 2 x.exponent

/-- `digits · 10 ^ exponent` in the scale of `scaled`, as a fraction. -/
def gridPoint (digits : Nat) (exponent : Int) : Nat × Nat :=
  if 0 ≤ exponent then (4 * unitsPerOne * digits * Nat.pow 10 exponent.toNat, 1)
  else (4 * unitsPerOne * digits, Nat.pow 10 (-exponent).toNat)

/-- The decimal rounds to the magnitude of `x`. -/
def holds (x : Binary64) (digits : Nat) (exponent : Int) : Bool :=
  let (num, den) := gridPoint digits exponent
  if x.significand % 2 = 0 then x.lower * den ≤ num && num ≤ x.upper * den
  else x.lower * den < num && num < x.upper * den

/-- How many decimal digits a number has; one for zero. -/
def digitCount (n : Nat) : Nat := (Nat.toDigits 10 n).length

/-- The exponent of the leading decimal digit of `x`, which is not zero. -/
def leading (x : Binary64) : Int :=
  if unitsPerOne ≤ x.magnitude then (digitCount (x.magnitude / unitsPerOne) : Int) - 1
  -- below one: count the digits of the inverse, rounded up
  else -(digitCount ((unitsPerOne + x.magnitude - 1) / x.magnitude - 1) : Int)

/-- The point of the grid `10 ^ exponent` at or below `x`. -/
def below (x : Binary64) (exponent : Int) : Nat :=
  if 0 ≤ exponent then x.magnitude / (unitsPerOne * Nat.pow 10 exponent.toNat)
  else x.magnitude * Nat.pow 10 (-exponent).toNat / unitsPerOne

/-- Of the neighbours `down` and `down + 1` on a grid, `down` is the one to take. -/
def prefersLower (x : Binary64) (down : Nat) (exponent : Int) : Bool :=
  let (low, den) := gridPoint down exponent
  let (high, _) := gridPoint (down + 1) exponent
  let under := x.scaled * den - low
  let above := high - x.scaled * den
  under < above || (under == above && down % 2 == 0)

/-- The better of the two neighbours of `x` on the grid `10 ^ exponent`, if one rounds to `x`. -/
def nearest? (x : Binary64) (exponent : Int) : Option Decimal :=
  let down := x.below exponent
  if x.holds down exponent then
    if x.holds (down + 1) exponent && !x.prefersLower down exponent then some ⟨down + 1, exponent⟩
    else some ⟨down, exponent⟩
  else if x.holds (down + 1) exponent then some ⟨down + 1, exponent⟩
  else none

/-- The shortest decimal that rounds to the magnitude of `x`, the nearest of them to `x`. -/
def shortest (x : Binary64) : Decimal :=
  if x.isZero then ⟨0, 0⟩
  else
    -- seventeen digits identify every number
    let grids := (List.range 17).map fun (n : Nat) => x.leading - n
    (grids.findSome? x.nearest?).getD ⟨0, 0⟩

/-- What a grid offers rounds to `x`. -/
theorem holds_of_nearest? {x : Binary64} {e : Int} {d : Decimal} (h : x.nearest? e = some d) :
    x.holds d.digits d.exponent = true := by
  unfold nearest? at h
  dsimp only at h
  split at h
  · rename_i hd
    split at h
    · rename_i hu
      obtain rfl := Option.some.inj h
      exact (Bool.and_eq_true_iff.1 hu).1
    · obtain rfl := Option.some.inj h
      exact hd
  · split at h
    · rename_i hu
      obtain rfl := Option.some.inj h
      exact hu
    · exact absurd h (by simp)

end Binary64

end ObjectGraph
