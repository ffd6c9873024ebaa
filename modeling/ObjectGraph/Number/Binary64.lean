/-!
# `Number.Binary64` — finite binary floating point with 53 bits

A finite number of the 64-bit binary format, kept as exact integers: sign, significand and
exponent, with the value

    ± significand · 2 ^ exponent · 2 ^ -1074.

So every magnitude is a whole number of *units* `2 ^ -1074`, and comparison, truncation and rounding
are arithmetic on natural numbers. The representation is unique up to the sign of zero. Powers are written
with `Nat.pow` and `Int.pow`: an infix power is another term where Mathlib is imported.

Contents:
* `Binary64`, `magnitude`, `units`; `zero`, `neg`;
* `roundHalfEven`, `ofUnits?`, `ofRatio?`: rounding to nearest, ties to even, `none` on overflow;
* `Width`, `rounded?`, `ofDecimal?`: rounding to the numbers of this format or of the 32-bit one;
* `ofInt`, `mul?`, `div?`, `fract`, `truncate`, `isIntegral`, `toSingle?`.
-/

namespace ObjectGraph

/-- A finite number of the 64-bit binary format: `± significand · 2 ^ (exponent - 1074)`. -/
structure Binary64 where
  negative : Bool
  significand : Nat
  exponent : Nat
  significand_lt : significand < Nat.pow 2 53
  normal : exponent = 0 ∨ Nat.pow 2 52 ≤ significand
  exponent_le : exponent ≤ 2045
  deriving DecidableEq, Repr

namespace Binary64

/-- How many units `2 ^ -1074` make one. -/
def unitsPerOne : Nat := Nat.pow 2 1074

/-- The magnitude, in units of `2 ^ -1074`. -/
def magnitude (x : Binary64) : Nat := x.significand * Nat.pow 2 x.exponent

/-- The value, in units of `2 ^ -1074`; both zeros are `0`. -/
def units (x : Binary64) : Int := if x.negative then -(x.magnitude : Int) else x.magnitude

/-- Zero, with a sign. -/
def zero (negative : Bool) : Binary64 := ⟨negative, 0, 0, by decide, .inl rfl, by decide⟩

instance : Inhabited Binary64 := ⟨zero false⟩

/-- The number of the other sign. -/
def neg (x : Binary64) : Binary64 := { x with negative := !x.negative }

/-- Both zeros are zero. -/
def isZero (x : Binary64) : Bool := x.significand == 0

/-- Two numbers are the same value; the sign of zero does not count. -/
def sameValue (x y : Binary64) : Bool := x.units == y.units

/-! ## Rounding -/

/-- The whole number nearest to `num / den`; a tie goes to the even neighbour. -/
def roundHalfEven (num den : Nat) : Nat :=
  let q := num / den
  let r := num % den
  if 2 * r < den then q
  else if den < 2 * r then q + 1
  -- a tie: to `q` or to `q + 1`, whichever is even
  else q + q % 2

/-- The number nearest to `num / den` units, ties to even; `none` if it is too large. -/
def ofUnits? (negative : Bool) (num den : Nat) : Option Binary64 :=
  let shift := (num / den).log2 - 52
  let rounded := roundHalfEven num (den * Nat.pow 2 shift)
  -- rounding up may carry into one more binary digit
  let significand := if rounded = Nat.pow 2 53 then Nat.pow 2 52 else rounded
  let exponent := if rounded = Nat.pow 2 53 then shift + 1 else shift
  if h : significand < Nat.pow 2 53 ∧ (exponent = 0 ∨ Nat.pow 2 52 ≤ significand) ∧ exponent ≤ 2045 then
    some ⟨negative, significand, exponent, h.1, h.2.1, h.2.2⟩
  else none

/-- The number nearest to `± num / den`. -/
def ofRatio? (negative : Bool) (num den : Nat) : Option Binary64 :=
  ofUnits? negative (num * unitsPerOne) den

/-- The formats a number may be rounded to: the 32-bit one, whose numbers all have a place in the
64-bit one, and the 64-bit one itself. -/
inductive Width where
  | single
  | double
  deriving DecidableEq, Repr

/-- The number of the 32-bit format nearest to `num / den` units, ties to even; `none` if it is too
large. -/
def singleOfUnits? (negative : Bool) (num den : Nat) : Option Binary64 :=
  -- keep 24 binary digits, and none below the least number of the 32-bit format
  let shift := max ((num / den).log2 - 23) 925
  let rounded := roundHalfEven num (den * Nat.pow 2 shift) * Nat.pow 2 shift
  if rounded < Nat.pow 2 (1074 + 128) then ofUnits? negative rounded 1 else none

/-- The number of a format nearest to `± num / den`. -/
def rounded? (width : Width) (negative : Bool) (num den : Nat) : Option Binary64 :=
  match width with
  | .single => singleOfUnits? negative (num * unitsPerOne) den
  | .double => ofRatio? negative num den

/-- The number of a format nearest to `± digits · 10 ^ exponent`. Exponents that are out of reach for
any significand of so many digits are not expanded. -/
def ofDecimal? (width : Width) (negative : Bool) (digits : Nat) (exponent : Int) : Option Binary64 :=
  if digits = 0 then some (zero negative)
  else
    -- a decimal digit takes more than three binary ones, so there are at most this many
    let places : Int := digits.log2 / 3 + 1
    if 310 < exponent then none
    else if exponent + places < -400 then some (zero negative)
    else if 0 ≤ exponent then rounded? width negative (digits * Nat.pow 10 exponent.toNat) 1
    else rounded? width negative digits (Nat.pow 10 (-exponent).toNat)

/-- The number nearest to a whole number of at most 64 bits. -/
def ofInt (n : Int) : Binary64 := (ofRatio? (decide (n < 0)) n.natAbs 1).getD (zero false)

/-! ## Arithmetic -/

/-- The product, rounded. -/
def mul? (x y : Binary64) : Option Binary64 :=
  ofUnits? (xor x.negative y.negative) (x.magnitude * y.magnitude) unitsPerOne

/-- The quotient, rounded; the divisor must not be zero. -/
def div? (x y : Binary64) : Option Binary64 :=
  ofUnits? (xor x.negative y.negative) (x.magnitude * unitsPerOne) y.magnitude

/-- True of whole numbers. -/
def isIntegral (x : Binary64) : Bool := x.magnitude % unitsPerOne == 0

/-- The whole number next to `x` in the direction of zero. -/
def truncate (x : Binary64) : Int :=
  let n : Int := (x.magnitude / unitsPerOne : Nat)
  if x.negative then -n else n

/-- What truncation leaves over; it has the sign of `x` and is exact. -/
def fract (x : Binary64) : Binary64 :=
  (ofUnits? x.negative (x.magnitude % unitsPerOne) 1).getD (zero x.negative)

/-- The nearest number of the 32-bit format, as a 64-bit one; `none` if it is too large. -/
def toSingle? (x : Binary64) : Option Binary64 := singleOfUnits? x.negative x.magnitude 1

/-! ## Laws -/

theorem units_neg (x : Binary64) : x.neg.units = -x.units := by
  cases h : x.negative <;> simp [units, neg, h, magnitude]

theorem sameValue_refl (x : Binary64) : x.sameValue x = true := by simp [sameValue]

theorem sameValue_comm (x y : Binary64) : x.sameValue y = y.sameValue x := by
  simp only [sameValue, Bool.beq_comm]

theorem sameValue_trans {x y z : Binary64} (h : x.sameValue y = true) (k : y.sameValue z = true) :
    x.sameValue z = true := by
  simp only [sameValue, beq_iff_eq] at *
  exact h.trans k

/-- The nearest whole number is the quotient, if what is left is at most half of the divisor, or the next one, if it
is at least that. -/
theorem roundHalfEven_cases (num den : Nat) :
    roundHalfEven num den = num / den ∧ 2 * (num % den) ≤ den ∨
      roundHalfEven num den = num / den + 1 ∧ den ≤ 2 * (num % den) := by
  unfold roundHalfEven
  dsimp only
  split
  · exact .inl ⟨rfl, by omega⟩
  · split
    · exact .inr ⟨rfl, by omega⟩
    · rcases Nat.mod_two_eq_zero_or_one (num / den) with even | odd
      · exact .inl ⟨by rw [even, Nat.add_zero], by omega⟩
      · exact .inr ⟨by rw [odd], by omega⟩

/-- The nearest whole number is within half a unit. -/
theorem roundHalfEven_le (num den : Nat) : 2 * (roundHalfEven num den * den) ≤ 2 * num + den := by
  have hq : num / den * den + num % den = num := Nat.div_add_mod' num den
  rcases roundHalfEven_cases num den with ⟨rounded, tie⟩ | ⟨rounded, tie⟩
  · rw [rounded]
    omega
  · rw [rounded, Nat.add_mul, Nat.one_mul]
    omega

/-- The nearest whole number is within half a unit. -/
theorem le_roundHalfEven (num : Nat) {den : Nat} (h : 0 < den) :
    2 * num ≤ 2 * (roundHalfEven num den * den) + den := by
  have hq : num / den * den + num % den = num := Nat.div_add_mod' num den
  have hr : num % den < den := Nat.mod_lt _ h
  rcases roundHalfEven_cases num den with ⟨rounded, tie⟩ | ⟨rounded, tie⟩
  · rw [rounded]
    omega
  · rw [rounded, Nat.add_mul, Nat.one_mul]
    omega

/-- A whole quotient is its own nearest whole number. -/
theorem roundHalfEven_mul (q : Nat) {den : Nat} (h : 0 < den) : roundHalfEven (q * den) den = q := by
  simp [roundHalfEven, Nat.mul_div_cancel _ h, h]

end Binary64

end ObjectGraph
